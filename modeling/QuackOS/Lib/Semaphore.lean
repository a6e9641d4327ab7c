import Mathlib.Data.List.Basic
import Mathlib.Logic.Function.Basic

/-!
# Binary semaphores

A binary semaphore is a flag and a queue of waiters.  A signal goes to the first waiter, or is
stored in the flag, or is lost when the flag is set already; a wait takes the flag, or is parked
behind the others, or is refused.

What a run of the semaphore did is a list of events.  `Runs` says which lists are possible and in
which state they end, and what follows is about all of them:

* `Runs.exclusive` — the flag is set only while nobody waits;
* `Runs.fifo` — waiters are woken in the order in which they were parked;
* `Runs.balance` — a stored signal stays until a wait takes it;
* `Runs.paired` — every completed wait has a signal of its own.
-/

namespace QuackOS.Semaphore

variable {τ : Type*}

/-- What one signal or one wait did. -/
inductive Event (τ : Type*)
  | woke (t : τ)
  | stored
  | lost
  | taken (t : τ)
  | parked (t : τ)
  | refused (t : τ)
  deriving DecidableEq, Repr

namespace Event

/-- The waiter that a signal woke. -/
def wokenTid : Event τ → Option τ
  | .woke t => some t
  | _ => none

/-- The waiter that was parked. -/
def parkedTid : Event τ → Option τ
  | .parked t => some t
  | _ => none

/-- A signal that was stored. -/
def isStored : Event τ → Bool
  | .stored => true
  | _ => false

/-- A wait that took the flag. -/
def isTaken : Event τ → Bool
  | .taken _ => true
  | _ => false

end Event

/-- The flag and the queue. -/
structure State (τ : Type*) where
  flag : Bool
  queue : List τ

/-- What an event does to the semaphore. -/
inductive Step : State τ → Event τ → State τ → Prop
  | woke (b : Bool) (t : τ) (q : List τ) : Step ⟨b, t :: q⟩ (.woke t) ⟨b, q⟩
  | stored : Step ⟨false, []⟩ .stored ⟨true, []⟩
  | lost : Step ⟨true, []⟩ .lost ⟨true, []⟩
  | taken (t : τ) (q : List τ) : Step ⟨true, q⟩ (.taken t) ⟨false, q⟩
  | parked (t : τ) (q : List τ) : Step ⟨false, q⟩ (.parked t) ⟨false, q ++ [t]⟩
  | refused (t : τ) (q : List τ) : Step ⟨false, q⟩ (.refused t) ⟨false, q⟩

/-- The events of a run from the new semaphore, and the state it ends in. -/
inductive Runs : List (Event τ) → State τ → Prop
  | new : Runs [] ⟨false, []⟩
  | snoc {tr : List (Event τ)} {s s' : State τ} {e : Event τ} (h : Runs tr s)
      (hstep : Step s e s') : Runs (tr ++ [e]) s'

variable {tr : List (Event τ)} {s : State τ}

/-- The flag is set only while nobody waits. -/
theorem Runs.exclusive (h : Runs tr s) (hflag : s.flag = true) : s.queue = [] := by
  induction h with
  | new => rfl
  | snoc h hstep ih =>
    cases hstep with
    | woke b t q => cases ih hflag
    | stored => rfl
    | lost => rfl
    | taken t q => cases hflag
    | parked t q => cases hflag
    | refused t q => cases hflag

/-- Waiters are woken in the order in which they were parked. -/
theorem Runs.fifo (h : Runs tr s) :
    tr.filterMap Event.parkedTid = tr.filterMap Event.wokenTid ++ s.queue := by
  induction h with
  | new => rfl
  | snoc h hstep ih =>
    rw [List.filterMap_append, List.filterMap_append, ih]
    cases hstep <;> simp [Event.parkedTid, Event.wokenTid, List.filterMap_cons]

/-- A stored signal stays until a wait takes it. -/
theorem Runs.balance (h : Runs tr s) :
    tr.countP Event.isStored = tr.countP Event.isTaken + if s.flag then 1 else 0 := by
  induction h with
  | new => rfl
  | snoc h hstep ih =>
    rw [List.countP_append, List.countP_append, ih]
    cases hstep <;> simp [Event.isStored, Event.isTaken]

/-! ## Waits and their signals -/

/-- The wait at position `w` is over: it took the flag, or it was parked and as many wakes as it
takes to reach it have come. -/
def Completed (tr : List (Event τ)) (w : ℕ) : Prop :=
  (∃ t, tr[w]? = some (.taken t)) ∨
    ∃ t, tr[w]? = some (.parked t) ∧
      ((tr.take w).filterMap Event.parkedTid).length < (tr.filterMap Event.wokenTid).length

/-- `f` gives every completed wait a signal of its own: one stored before it, or the one that
woke it. -/
structure Pairing (tr : List (Event τ)) (f : ℕ → ℕ) : Prop where
  distinct : ∀ w w', Completed tr w → Completed tr w' → f w = f w' → w = w'
  signal : ∀ w, Completed tr w →
    (∃ t, tr[w]? = some (.taken t) ∧ f w < w ∧ tr[f w]? = some .stored) ∨
      ∃ t, tr[w]? = some (.parked t) ∧ w < f w ∧ tr[f w]? = some (.woke t)

theorem getElem?_snoc_of_lt {l : List (Event τ)} {e : Event τ} {w : ℕ} (h : w < l.length) :
    (l ++ [e])[w]? = l[w]? := List.getElem?_append_left h

theorem lt_of_getElem? {l : List (Event τ)} {e : Event τ} {w : ℕ} (h : l[w]? = some e) :
    w < l.length := (List.getElem?_eq_some_iff.mp h).1

theorem take_snoc_of_lt {l : List (Event τ)} {e : Event τ} {w : ℕ} (h : w < l.length) :
    (l ++ [e]).take w = l.take w := List.take_append_of_le_length (Nat.le_of_lt h)

theorem Completed.lt {w : ℕ} (h : Completed tr w) : w < tr.length := by
  rcases h with ⟨t, ht⟩ | ⟨t, ht, -⟩
  · exact lt_of_getElem? ht
  · exact lt_of_getElem? ht

/-- What an event adds to the waits completed before it, of those already begun. -/
theorem completed_snoc_of_lt {e : Event τ} {w : ℕ} (hw : w < tr.length) :
    Completed (tr ++ [e]) w ↔ Completed tr w ∨
      ∃ t u, tr[w]? = some (.parked t) ∧ e = .woke u ∧
        ((tr.take w).filterMap Event.parkedTid).length = (tr.filterMap Event.wokenTid).length := by
  unfold Completed
  rw [getElem?_snoc_of_lt hw, take_snoc_of_lt hw, List.filterMap_append, List.length_append]
  cases e with
  | woke u =>
    simp only [Event.wokenTid, List.filterMap_cons, List.filterMap_nil, List.length_singleton]
    constructor
    · rintro (htaken | ⟨t, ht, hlt⟩)
      · exact .inl (.inl htaken)
      · rcases Nat.lt_or_eq_of_le (Nat.le_of_lt_succ hlt) with hlt | heq
        · exact .inl (.inr ⟨t, ht, hlt⟩)
        · exact .inr ⟨t, u, ht, rfl, heq⟩
    · rintro ((htaken | ⟨t, ht, hlt⟩) | ⟨t, u', ht, -, heq⟩)
      · exact .inl htaken
      · exact .inr ⟨t, ht, by omega⟩
      · exact .inr ⟨t, ht, by omega⟩
  | stored => simp [Event.wokenTid, List.filterMap_cons]
  | lost => simp [Event.wokenTid, List.filterMap_cons]
  | taken t => simp [Event.wokenTid, List.filterMap_cons]
  | parked t => simp [Event.wokenTid, List.filterMap_cons]
  | refused t => simp [Event.wokenTid, List.filterMap_cons]

/-- The last event is a completed wait only if it took the flag. -/
theorem completed_snoc_self (h : Runs tr s) {e : Event τ} :
    Completed (tr ++ [e]) tr.length ↔ ∃ t, e = .taken t := by
  have hlen := congrArg List.length h.fifo
  rw [List.length_append] at hlen
  unfold Completed
  rw [List.getElem?_concat_length]
  constructor
  · rintro (⟨t, ht⟩ | ⟨t, ht, hlt⟩)
    · exact ⟨t, Option.some.inj ht⟩
    · cases Option.some.inj ht
      rw [List.take_left, List.filterMap_append, List.length_append] at hlt
      simp [Event.wokenTid, List.filterMap_cons] at hlt
      omega
  · rintro ⟨t, rfl⟩
    exact .inl ⟨t, rfl⟩

/-- The position of the `n`-th waiter parked. -/
theorem exists_parked (l : List (Event τ)) {n : ℕ} {t : τ}
    (h : (l.filterMap Event.parkedTid)[n]? = some t) :
    ∃ w, l[w]? = some (.parked t) ∧ ((l.take w).filterMap Event.parkedTid).length = n := by
  induction l generalizing n with
  | nil => simp at h
  | cons e l ih =>
    by_cases hskip : e.parkedTid = none
    · rw [List.filterMap_cons_none hskip] at h
      obtain ⟨w, hw, hlen⟩ := ih h
      exact ⟨w + 1, hw, by rw [List.take_succ_cons, List.filterMap_cons_none hskip, hlen]⟩
    · obtain ⟨u, hu⟩ := Option.ne_none_iff_exists'.mp hskip
      have he : e = .parked u := by
        cases e <;> simp_all [Event.parkedTid]
      rw [List.filterMap_cons_some hu] at h
      cases n with
      | zero =>
        cases Option.some.inj h
        exact ⟨0, by rw [he]; rfl, rfl⟩
      | succ n =>
        obtain ⟨w, hw, hlen⟩ := ih h
        exact ⟨w + 1, hw, by
          rw [List.take_succ_cons, List.filterMap_cons_some hu, List.length_cons, hlen]⟩

/-- At most one waiter is the `n`-th. -/
theorem parked_unique {l : List (Event τ)} {w w' : ℕ} {t t' : τ} (hw : l[w]? = some (.parked t))
    (hw' : l[w']? = some (.parked t'))
    (heq : ((l.take w).filterMap Event.parkedTid).length =
      ((l.take w').filterMap Event.parkedTid).length) : w = w' := by
  -- the counts of two different positions differ, since the earlier one is itself parked
  have key : ∀ {a b : ℕ} {t : τ}, l[a]? = some (.parked t) → a < b →
      ((l.take a).filterMap Event.parkedTid).length <
        ((l.take b).filterMap Event.parkedTid).length := by
    intro a b t ha hab
    have hsucc : l.take (a + 1) = l.take a ++ [.parked t] := by
      rw [List.take_add_one, ha]
      rfl
    have hpre : l.take (a + 1) <+: l.take b := List.take_prefix_take_left (by omega)
    have hle := (hpre.filterMap Event.parkedTid).length_le
    rw [hsucc, List.filterMap_append, List.length_append] at hle
    simp [Event.parkedTid] at hle
    omega
  rcases Nat.lt_trichotomy w w' with hlt | rfl | hgt
  · have := key hw hlt
    omega
  · rfl
  · have := key hw' hgt
    omega

/-- Waits keep their signals when an event follows. -/
theorem Pairing.signal_snoc {f : ℕ → ℕ} (h : Pairing tr f) {e : Event τ} {w : ℕ}
    (hw : Completed tr w) :
    (∃ t, (tr ++ [e])[w]? = some (.taken t) ∧ f w < w ∧ (tr ++ [e])[f w]? = some .stored) ∨
      ∃ t, (tr ++ [e])[w]? = some (.parked t) ∧ w < f w ∧ (tr ++ [e])[f w]? = some (.woke t) := by
  rw [getElem?_snoc_of_lt hw.lt]
  rcases h.signal w hw with ⟨t, ht, hlt, hs⟩ | ⟨t, ht, hlt, hs⟩
  · exact .inl ⟨t, ht, hlt, by rwa [getElem?_snoc_of_lt (lt_of_getElem? hs)]⟩
  · exact .inr ⟨t, ht, hlt, by rwa [getElem?_snoc_of_lt (lt_of_getElem? hs)]⟩

theorem Pairing.lt {f : ℕ → ℕ} (h : Pairing tr f) {w : ℕ} (hw : Completed tr w) :
    f w < tr.length := by
  rcases h.signal w hw with ⟨t, -, -, hs⟩ | ⟨t, -, -, hs⟩
  · exact lt_of_getElem? hs
  · exact lt_of_getElem? hs

/-- An event that completes no wait. -/
theorem Pairing.snoc_same {f : ℕ → ℕ} (h : Pairing tr f) {e : Event τ}
    (hsame : ∀ w, Completed (tr ++ [e]) w → Completed tr w) : Pairing (tr ++ [e]) f where
  distinct w w' hw hw' := h.distinct w w' (hsame w hw) (hsame w' hw')
  signal w hw := h.signal_snoc (hsame w hw)

/-- An event that completes one more wait, which gets a signal of its own. -/
theorem Pairing.snoc_new {f : ℕ → ℕ} (h : Pairing tr f) {e : Event τ} {v k : ℕ}
    (hone : ∀ w, Completed (tr ++ [e]) w → w = v ∨ w ≠ v ∧ Completed tr w)
    (hfresh : ∀ w, Completed tr w → f w ≠ k)
    (hsignal : (∃ t, (tr ++ [e])[v]? = some (.taken t) ∧ k < v ∧ (tr ++ [e])[k]? = some .stored) ∨
      ∃ t, (tr ++ [e])[v]? = some (.parked t) ∧ v < k ∧ (tr ++ [e])[k]? = some (.woke t)) :
    Pairing (tr ++ [e]) (Function.update f v k) where
  distinct w w' hw hw' heq := by
    rcases hone w hw with rfl | ⟨hne, hold⟩
    · rcases hone w' hw' with rfl | ⟨hne', hold'⟩
      · rfl
      · rw [Function.update_self, Function.update_of_ne hne'] at heq
        exact absurd heq.symm (hfresh w' hold')
    · rcases hone w' hw' with rfl | ⟨hne', hold'⟩
      · rw [Function.update_self, Function.update_of_ne hne] at heq
        exact absurd heq (hfresh w hold)
      · rw [Function.update_of_ne hne, Function.update_of_ne hne'] at heq
        exact h.distinct w w' hold hold' heq
  signal w hw := by
    rcases hone w hw with rfl | ⟨hne, hold⟩
    · rw [Function.update_self]
      exact hsignal
    · rw [Function.update_of_ne hne]
      exact h.signal_snoc hold

/-- The waits that an event completes. -/
theorem Completed.of_snoc (h : Runs tr s) {e : Event τ} {w : ℕ} (hw : Completed (tr ++ [e]) w) :
    Completed tr w ∨ (w = tr.length ∧ ∃ t, e = .taken t) ∨
      ∃ t u, tr[w]? = some (.parked t) ∧ e = .woke u ∧
        ((tr.take w).filterMap Event.parkedTid).length = (tr.filterMap Event.wokenTid).length := by
  have hlt := hw.lt
  rw [List.length_append, List.length_singleton] at hlt
  rcases Nat.lt_or_eq_of_le (Nat.le_of_lt_succ hlt) with hlt | rfl
  · rcases (completed_snoc_of_lt hlt).mp hw with hold | hwoken
    · exact .inl hold
    · exact .inr (.inr hwoken)
  · exact .inr (.inl ⟨rfl, (completed_snoc_self h).mp hw⟩)

/-- An event other than a wake or a wait that took the flag completes no wait. -/
theorem Completed.of_snoc_other {e : Event τ} {w : ℕ} (hw : Completed (tr ++ [e]) w) (h : Runs tr s)
    (htaken : ∀ t, e ≠ .taken t) (hwoke : ∀ t, e ≠ .woke t) : Completed tr w := by
  rcases Completed.of_snoc h hw with hold | ⟨-, t, ht⟩ | ⟨t, u, -, hu, -⟩
  · exact hold
  · exact absurd ht (htaken t)
  · exact absurd hu (hwoke u)

/-- The signal that the flag stands for belongs to no wait yet. -/
def Armed (tr : List (Event τ)) (f : ℕ → ℕ) : Prop :=
  ∃ k, tr[k]? = some .stored ∧ ∀ w, Completed tr w → f w ≠ k

theorem Runs.exists_pairing (h : Runs tr s) :
    ∃ f, Pairing tr f ∧ (s.flag = true → Armed tr f) := by
  induction h with
  | new => exact ⟨id, ⟨fun w w' hw => absurd hw.lt (Nat.not_lt_zero w),
      fun w hw => absurd hw.lt (Nat.not_lt_zero w)⟩, fun hflag => by cases hflag⟩
  | @snoc tr s s' e h hstep ih =>
    obtain ⟨f, hf, harmed⟩ := ih
    cases hstep with
    | woke b t q =>
      -- the first waiter is the one parked after as many others as have been woken
      have hfifo := h.fifo
      have hnth : (tr.filterMap Event.parkedTid)[(tr.filterMap Event.wokenTid).length]? =
          some t := by
        rw [hfifo, List.getElem?_append_right (Nat.le_refl _), Nat.sub_self]
        rfl
      obtain ⟨v, hv, hcount⟩ := exists_parked tr hnth
      refine ⟨Function.update f v tr.length, hf.snoc_new (fun w hw => ?_)
        (fun w hw => Nat.ne_of_lt (hf.lt hw)) (.inr ⟨t, ?_, lt_of_getElem? hv, ?_⟩),
        fun hflag => ?_⟩
      · by_cases hwv : w = v
        · exact .inl hwv
        · refine .inr ⟨hwv, ?_⟩
          rcases Completed.of_snoc h hw with hold | ⟨-, t', ht'⟩ | ⟨t', u, ht', -, hcount'⟩
          · exact hold
          · cases ht'
          · exact absurd (parked_unique ht' hv (hcount'.trans hcount.symm)) hwv
      · rwa [getElem?_snoc_of_lt (lt_of_getElem? hv)]
      · exact List.getElem?_concat_length
      · cases h.exclusive hflag
    | stored =>
      have hsame : ∀ w, Completed (tr ++ [.stored]) w → Completed tr w := fun w hw =>
        hw.of_snoc_other h (by simp) (by simp)
      refine ⟨f, hf.snoc_same hsame, fun _ => ⟨tr.length, List.getElem?_concat_length, ?_⟩⟩
      exact fun w hw => Nat.ne_of_lt (hf.lt (hsame w hw))
    | lost =>
      have hsame : ∀ w, Completed (tr ++ [.lost]) w → Completed tr w := fun w hw =>
        hw.of_snoc_other h (by simp) (by simp)
      obtain ⟨k, hk, hfresh⟩ := harmed rfl
      refine ⟨f, hf.snoc_same hsame, fun _ => ⟨k, ?_, fun w hw => hfresh w (hsame w hw)⟩⟩
      rwa [getElem?_snoc_of_lt (lt_of_getElem? hk)]
    | taken t q =>
      obtain ⟨k, hk, hfresh⟩ := harmed rfl
      have hklt := lt_of_getElem? hk
      refine ⟨Function.update f tr.length k, hf.snoc_new (fun w hw => ?_) hfresh
        (.inl ⟨t, List.getElem?_concat_length, hklt, ?_⟩), fun hflag => by cases hflag⟩
      · rcases Completed.of_snoc h hw with hold | ⟨hlast, -⟩ | ⟨t', u, -, hu, -⟩
        · exact .inr ⟨Nat.ne_of_lt hold.lt, hold⟩
        · exact .inl hlast
        · cases hu
      · rwa [getElem?_snoc_of_lt hklt]
    | parked t q =>
      refine ⟨f, hf.snoc_same fun w hw => ?_, fun hflag => by cases hflag⟩
      exact hw.of_snoc_other h (by simp) (by simp)
    | refused t q =>
      refine ⟨f, hf.snoc_same fun w hw => ?_, fun hflag => by cases hflag⟩
      exact hw.of_snoc_other h (by simp) (by simp)

/-- **Every completed wait has a signal of its own**, stored before it or waking it. -/
theorem Runs.paired (h : Runs tr s) : ∃ f, Pairing tr f := by
  obtain ⟨f, hf, -⟩ := h.exists_pairing
  exact ⟨f, hf⟩

end QuackOS.Semaphore
