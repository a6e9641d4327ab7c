import Mathlib.Data.List.Pairwise
import Mathlib.Data.Nat.Basic

/-!
# Binary search

The search for the last index at which a test holds, when it holds up to some index and fails from
there on.  A test may fail to come back, and so may the search.

* `lastLoop` — the rounds of the search between two bounds, with the best index so far;
* `lastLoop_ends` — with tests that come back, it ends at its best index or at one in between;
* `lastLoop_eq` — **where the test turns from true to false is where the search ends**;
* `exists_cut` — a list in order is cut in two by a test that respects the order.
-/

namespace QuackOS.Bisect

/-- The rounds of the search, as many as `n`. -/
def lastLoop (test : ℕ → Option Bool) : ℕ → ℕ → ℕ → Option ℕ → Option (Option ℕ)
  | 0, _, _, _ => none
  | n + 1, lo, hi, best =>
    if lo < hi then do
      let mid := (lo + hi) / 2
      if ← test mid then lastLoop test n (mid + 1) hi (some mid) else lastLoop test n lo mid best
    else some best

section Rounds

variable {test : ℕ → Option Bool} {n lo hi : ℕ} {best : Option ℕ}

/-- A round that finds the test true. -/
theorem lastLoop_true (hlt : lo < hi) (htest : test ((lo + hi) / 2) = some true) :
    lastLoop test (n + 1) lo hi best =
      lastLoop test n ((lo + hi) / 2 + 1) hi (some ((lo + hi) / 2)) := by
  rw [lastLoop, if_pos hlt]
  dsimp only
  rw [htest]
  rfl

/-- A round that finds it false. -/
theorem lastLoop_false (hlt : lo < hi) (htest : test ((lo + hi) / 2) = some false) :
    lastLoop test (n + 1) lo hi best = lastLoop test n lo ((lo + hi) / 2) best := by
  rw [lastLoop, if_pos hlt]
  dsimp only
  rw [htest]
  rfl

/-- The end of the rounds. -/
theorem lastLoop_done (hle : hi ≤ lo) : lastLoop test (n + 1) lo hi best = some best := by
  rw [lastLoop, if_neg (Nat.not_lt.mpr hle)]

/-- With tests that come back, the search ends. -/
theorem lastLoop_ends (htest : ∀ i < hi, ∃ b, test i = some b) (hn : hi - lo < n) :
    ∃ r, lastLoop test n lo hi best = some r ∧ ∀ i, r = some i → best = some i ∨ i < hi := by
  induction n generalizing lo hi best with
  | zero => exact absurd hn (Nat.not_lt_zero _)
  | succ n ih =>
    rcases Nat.lt_or_ge lo hi with hlt | hge
    · have hmid : (lo + hi) / 2 < hi := by omega
      obtain ⟨b, hb⟩ := htest _ hmid
      cases b with
      | true =>
        obtain ⟨r, hr, hin⟩ := @ih ((lo + hi) / 2 + 1) hi (some ((lo + hi) / 2)) htest (by omega)
        refine ⟨r, (lastLoop_true hlt hb).trans hr, fun i hi' => .inr ?_⟩
        rcases hin i hi' with hbest | hlast
        · rwa [← Option.some.inj hbest]
        · exact hlast
      | false =>
        obtain ⟨r, hr, hin⟩ := @ih lo ((lo + hi) / 2) best
          (fun i hi' => htest i (Nat.lt_trans hi' hmid)) (by omega)
        refine ⟨r, (lastLoop_false hlt hb).trans hr, fun i hi' => ?_⟩
        exact (hin i hi').imp_right fun hlast => Nat.lt_trans hlast hmid
    · exact ⟨best, lastLoop_done hge, fun i hi' => .inl hi'⟩

/-- **The search finds where the test turns.**  If it holds below `k` and fails from `k` on, the last
index is the one before `k`, if any between the bounds. -/
theorem lastLoop_eq {k : ℕ} (htest : ∀ i, lo ≤ i → i < hi → test i = some (decide (i < k)))
    (hlo : lo ≤ k) (hhi : k ≤ hi) (hn : hi - lo < n) :
    lastLoop test n lo hi best = some (if lo < k then some (k - 1) else best) := by
  induction n generalizing lo hi best with
  | zero => exact absurd hn (Nat.not_lt_zero _)
  | succ n ih =>
    rcases Nat.lt_or_ge lo hi with hlt | hge
    · have hmid := htest ((lo + hi) / 2) (by omega) (by omega)
      by_cases hk : (lo + hi) / 2 < k
      · -- the answer is the middle or behind it
        rw [decide_eq_true hk] at hmid
        rw [lastLoop_true hlt hmid, ih (fun i hlo' hhi' => htest i (by omega) hhi') hk hhi (by omega),
          if_pos (show lo < k by omega)]
        split
        · rfl
        · rw [show k - 1 = (lo + hi) / 2 by omega]
      · rw [decide_eq_false hk] at hmid
        rw [lastLoop_false hlt hmid,
          ih (fun i hlo' hhi' => htest i hlo' (by omega)) hlo (Nat.le_of_not_lt hk) (by omega)]
    · rw [lastLoop_done hge, if_neg (by omega)]

end Rounds

/-- A test that holds of what comes before, whenever it holds, cuts a list in two. -/
theorem exists_cut {α : Type*} {p : α → Bool} {L : List α}
    (h : L.Pairwise fun a b => p b = true → p a = true) :
    ∃ A B, L = A ++ B ∧ (∀ a ∈ A, p a = true) ∧ ∀ b ∈ B, p b = false := by
  induction L with
  | nil => exact ⟨[], [], rfl, (fun _ h => nomatch h), fun _ h => nomatch h⟩
  | cons x L ih =>
    obtain ⟨hx, hL⟩ := List.pairwise_cons.mp h
    cases hp : p x with
    | true =>
      obtain ⟨A, B, rfl, hA, hB⟩ := ih hL
      refine ⟨x :: A, B, rfl, ?_, hB⟩
      rintro a (_ | ⟨_, ha⟩)
      · exact hp
      · exact hA a ha
    | false =>
      refine ⟨[], x :: L, rfl, (fun _ h => nomatch h), ?_⟩
      rintro b (_ | ⟨_, hb⟩)
      · exact hp
      · cases hpb : p b with
        | false => rfl
        | true => exact absurd (hp.symm.trans (hx b hb hpb)) Bool.false_ne_true

end QuackOS.Bisect
