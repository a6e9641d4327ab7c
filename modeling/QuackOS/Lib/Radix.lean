import Mathlib.Data.List.Basic
import Mathlib.Data.List.Infix
import Mathlib.Logic.Function.Basic

/-!
# Radix trees stored in a heap of nodes

A multi-level table is a heap of nodes, each an array of words; some words name a node of
the next level.  A path is a list of indices, and reading it from the root either arrives
at a node or stops at a word that names none.

* `reach` — the node a path arrives at;
* `stop` — the word a path of full length ends at, with the level it is found on;
* `IsTree` — no two paths arrive at one node, so a node belongs to one place of the tree;
* `reach_write_of_apart`, `stop_write_of_apart` — a word written at one place of
  a tree is seen only by the paths through that place;
* `reach_install`, `IsTree.install`, `stop_install` — hanging a blank node into the tree.
-/

namespace QuackOS.Radix

variable {N ι W : Type*} (child : W → Option N)

/-- The node the path `p` arrives at when it is read from `root`. -/
def reach (mem : N → ι → W) (root : N) : List ι → Option N
  | [] => some root
  | i :: p => (child (mem root i)).bind fun n => reach mem n p

/-- Where a path stops: at its last index, or at the first word that names no node.  The
level counts the nodes descended through. -/
def stop (mem : N → ι → W) (level : ℕ) (n : N) : List ι → Option (ℕ × W)
  | [] => none
  | [i] => some (level, mem n i)
  | i :: j :: p =>
    match child (mem n i) with
    | some m => stop mem (level + 1) m (j :: p)
    | none => some (level, mem n i)

/-- The paths of at most `d` indices arrive at different nodes. -/
def IsTree (mem : N → ι → W) (root : N) (d : ℕ) : Prop :=
  ∀ p q n, p.length ≤ d → q.length ≤ d →
    reach child mem root p = some n → reach child mem root q = some n → p = q

/-- The heap with the word at index `i` of node `n` replaced. -/
def write [DecidableEq N] [DecidableEq ι] (mem : N → ι → W) (n : N) (i : ι) (w : W) :
    N → ι → W :=
  Function.update mem n (Function.update (mem n) i w)

variable {child} {mem mem' : N → ι → W} {root n : N} {i : ι} {w : W} {p q : List ι} {d : ℕ}

section Reading

@[simp] theorem reach_nil : reach child mem root [] = some root := rfl

theorem reach_append : reach child mem root (p ++ q) =
    (reach child mem root p).bind fun n => reach child mem n q := by
  induction p generalizing root with
  | nil => rfl
  | cons i p ih =>
    simp only [List.cons_append, reach]
    cases child (mem root i) with
    | none => rfl
    | some m => exact ih

theorem reach_concat : reach child mem root (p ++ [i]) =
    (reach child mem root p).bind fun n => child (mem n i) := by
  rw [reach_append]
  cases reach child mem root p with
  | none => rfl
  | some n => simp [reach]

/-- A path sees only the words at the places it goes through. -/
theorem reach_congr (h : ∀ q n i, q ++ [i] <+: p → reach child mem root q = some n →
    child (mem' n i) = child (mem n i)) :
    reach child mem' root p = reach child mem root p := by
  induction p using List.reverseRecOn with
  | nil => rfl
  | append_singleton p i ih =>
    have hp : reach child mem' root p = reach child mem root p :=
      ih fun q n j hq hn => h q n j (hq.trans (List.prefix_append p [i])) hn
    rw [reach_concat, reach_concat, hp]
    cases hn : reach child mem root p with
    | none => rfl
    | some n => exact h p n i (List.prefix_refl _) hn

theorem stop_of_reach {level : ℕ} {r : List ι} (h : reach child mem root p = some n)
    (hr : r ≠ []) :
    stop child mem level root (p ++ r) = stop child mem (level + p.length) n r := by
  induction p generalizing root level with
  | nil =>
    cases h
    rfl
  | cons i p ih =>
    obtain ⟨m, hm, hmn⟩ := Option.bind_eq_some_iff.mp h
    have hne : p ++ r ≠ [] := by simp [hr]
    obtain ⟨j, t, ht⟩ := List.exists_cons_of_ne_nil hne
    have hstep : stop child mem level root (i :: p ++ r) =
        stop child mem (level + 1) m (p ++ r) := by
      rw [List.cons_append, ht, stop, hm]
    rw [hstep, ih hmn, List.length_cons]
    congr 1
    omega

/-- A path stops at a word of the node it has arrived at, and above its end only at a word
that names no node. -/
theorem stop_eq_some {level l : ℕ} (h : stop child mem level root p = some (l, w)) :
    ∃ q i r n, p = q ++ i :: r ∧ l = level + q.length ∧ reach child mem root q = some n ∧
      w = mem n i ∧ (r ≠ [] → child w = none) := by
  induction p generalizing root level with
  | nil => cases h
  | cons i p ih =>
    cases p with
    | nil =>
      cases h
      exact ⟨[], i, [], root, rfl, rfl, rfl, rfl, fun h => absurd rfl h⟩
    | cons j p =>
      rw [stop] at h
      cases hc : child (mem root i) with
      | none =>
        simp only [hc, Option.some.injEq, Prod.mk.injEq] at h
        obtain ⟨rfl, rfl⟩ := h
        exact ⟨[], i, j :: p, root, rfl, rfl, rfl, rfl, fun _ => hc⟩
      | some m =>
        simp only [hc] at h
        obtain ⟨q, k, r, n, hp, hl, hq, hw, hr⟩ := ih h
        refine ⟨i :: q, k, r, n, by simp [hp], ?_, ?_, hw, hr⟩
        · rw [hl, List.length_cons]
          omega
        · rw [reach, hc, Option.bind_some, hq]

theorem stop_congr {level : ℕ}
    (h : ∀ q n i, q ++ [i] <+: p → reach child mem root q = some n → mem' n i = mem n i) :
    stop child mem' level root p = stop child mem level root p := by
  induction p generalizing root level with
  | nil => rfl
  | cons i p ih =>
    have hi : mem' root i = mem root i := h [] root i (by simp) rfl
    cases p with
    | nil => simp only [stop, hi]
    | cons j p =>
      simp only [stop, hi]
      cases hc : child (mem root i) with
      | none => rfl
      | some m =>
        apply ih
        intro q n k hq hn
        apply h (i :: q) n k
        · simpa using hq
        · simpa [reach, hc] using hn

/-- Heaps that agree on the nodes of a tree arrive at the same nodes. -/
theorem reach_congr_nodes (h : ∀ q n, q.length ≤ d → reach child mem root q = some n →
    mem' n = mem n) (hp : p.length ≤ d + 1) :
    reach child mem' root p = reach child mem root p := by
  apply reach_congr
  intro q n i hq hn
  have := hq.length_le
  simp only [List.length_append, List.length_cons, List.length_nil] at this
  rw [h q n (by omega) hn]

theorem stop_congr_nodes {level : ℕ} (h : ∀ q n, q.length ≤ d → reach child mem root q = some n →
    mem' n = mem n) (hp : p.length ≤ d + 1) :
    stop child mem' level root p = stop child mem level root p := by
  apply stop_congr
  intro q n i hq hn
  have := hq.length_le
  simp only [List.length_append, List.length_cons, List.length_nil] at this
  rw [h q n (by omega) hn]

theorem IsTree.congr (ht : IsTree child mem root d) (h : ∀ q n, q.length ≤ d →
    reach child mem root q = some n → mem' n = mem n) : IsTree child mem' root d := by
  intro p q n hp hq hpn hqn
  rw [reach_congr_nodes h (by omega)] at hpn hqn
  exact ht p q n hp hq hpn hqn

/-- From a node whose words name no node, only the empty path arrives anywhere. -/
theorem reach_blank (hb : ∀ j, child (mem n j) = none) :
    reach child mem n q = if q = [] then some n else none := by
  cases q with
  | nil => rfl
  | cons j q => simp [reach, hb]

end Reading

/-! ## Writing one word -/

section Writing

variable [DecidableEq N] [DecidableEq ι]

@[simp] theorem write_self : write mem n i w n i = w := by
  simp [write]

theorem write_of_ne {m : N} {j : ι} (h : ¬ (m = n ∧ j = i)) :
    write mem n i w m j = mem m j := by
  rw [write]
  by_cases hm : m = n
  · subst hm
    rw [Function.update_self, Function.update_of_ne fun hj => h ⟨rfl, hj⟩]
  · rw [Function.update_of_ne hm]

theorem write_of_node_ne {m : N} (h : m ≠ n) : write mem n i w m = mem m := by
  rw [write, Function.update_of_ne h]

/-- In a tree the word written at the end of `p` lies on no path but the continuations of
`p ++ [i]`. -/
theorem IsTree.write_eq (ht : IsTree child mem root d) (hp : reach child mem root p = some n)
    (hd : p.length ≤ d) (hq : q.length ≤ d + 1) (hpq : ¬ p ++ [i] <+: q)
    {r : List ι} {m : N} {j : ι} (hr : r ++ [j] <+: q) (hm : reach child mem root r = some m) :
    write mem n i w m j = mem m j := by
  apply write_of_ne
  rintro ⟨rfl, rfl⟩
  have hlen : r.length ≤ d := by
    have := hr.length_le
    simp only [List.length_append, List.length_cons, List.length_nil] at this
    omega
  have : p = r := ht p r m hd hlen hp hm
  subst this
  exact hpq hr

theorem reach_write_of_apart (ht : IsTree child mem root d)
    (hp : reach child mem root p = some n) (hd : p.length ≤ d) (hq : q.length ≤ d + 1)
    (hpq : ¬ p ++ [i] <+: q) :
    reach child (write mem n i w) root q = reach child mem root q := by
  apply reach_congr
  intro r m j hr hm
  rw [ht.write_eq hp hd hq hpq hr hm]

theorem stop_write_of_apart {level : ℕ} (ht : IsTree child mem root d)
    (hp : reach child mem root p = some n) (hd : p.length ≤ d) (hq : q.length ≤ d + 1)
    (hpq : ¬ p ++ [i] <+: q) :
    stop child (write mem n i w) level root q = stop child mem level root q :=
  stop_congr fun _ _ _ hr hm => ht.write_eq hp hd hq hpq hr hm

/-- The word below which nothing was reached before is not on the path to itself. -/
theorem reach_write_self (ht : IsTree child mem root d)
    (hp : reach child mem root p = some n) (hd : p.length ≤ d) :
    reach child (write mem n i w) root p = some n := by
  rw [reach_write_of_apart ht hp hd (by omega) ?_, hp]
  intro h
  have := h.length_le
  simp only [List.length_append, List.length_cons, List.length_nil] at this
  omega

/-- A word on the last level is on no path that arrives at a node. -/
theorem reach_write_leaf (ht : IsTree child mem root d) (hp : reach child mem root p = some n)
    (hd : p.length = d) (hq : q.length ≤ d) :
    reach child (write mem n i w) root q = reach child mem root q := by
  apply reach_write_of_apart ht hp (by omega) (by omega)
  intro h
  have := h.length_le
  simp only [List.length_append, List.length_cons, List.length_nil] at this
  omega

theorem IsTree.write_leaf (ht : IsTree child mem root d)
    (hp : reach child mem root p = some n) (hd : p.length = d) :
    IsTree child (write mem n i w) root d := by
  intro r r' m hr hr' hm hm'
  rw [reach_write_leaf ht hp hd hr] at hm
  rw [reach_write_leaf ht hp hd hr'] at hm'
  exact ht r r' m hr hr' hm hm'

end Writing

/-! ## Hanging in a blank node -/

section Install

variable [DecidableEq N] [DecidableEq ι] {c : N}

/-- After a blank node `c` is hung in at `p ++ [i]`, the paths to that place arrive at `c`,
no path goes on below it, and every other path arrives where it did. -/
theorem reach_install (ht : IsTree child mem root d) (hp : reach child mem root p = some n)
    (hd : p.length ≤ d) (hb : ∀ j, child (mem c j) = none) (hc : c ≠ n)
    (hw : child w = some c) (hq : q.length ≤ d + 1) :
    reach child (write mem n i w) root q =
      if p ++ [i] <+: q then (if q = p ++ [i] then some c else none)
      else reach child mem root q := by
  split
  case isFalse hpq => exact reach_write_of_apart ht hp hd hq hpq
  case isTrue hpq =>
    obtain ⟨r, rfl⟩ := hpq
    have hb' : ∀ j, child (write mem n i w c j) = none := by
      intro j
      rw [write_of_node_ne hc]
      exact hb j
    rw [reach_append, reach_concat, reach_write_self ht hp hd, Option.bind_some, write_self, hw,
      Option.bind_some, reach_blank hb']
    simp

theorem IsTree.install (ht : IsTree child mem root d) (hp : reach child mem root p = some n)
    (hd : p.length < d) (hb : ∀ j, child (mem c j) = none)
    (hfresh : ∀ q, q.length ≤ d → reach child mem root q ≠ some c) (hw : child w = some c) :
    IsTree child (write mem n i w) root d := by
  have hc : c ≠ n := by
    rintro rfl
    exact hfresh p hd.le hp
  -- a path of the new tree arrives at `c` by `p ++ [i]` only, and elsewhere as before
  have key : ∀ q m, q.length ≤ d → reach child (write mem n i w) root q = some m →
      (q = p ++ [i] ∧ m = c) ∨ reach child mem root q = some m := by
    intro q m hq hm
    rw [reach_install ht hp hd.le hb hc hw (by omega)] at hm
    split at hm
    · split at hm
      · cases hm
        exact Or.inl ⟨by assumption, rfl⟩
      · cases hm
    · exact Or.inr hm
  intro q q' m hq hq' hm hm'
  rcases key q m hq hm with ⟨rfl, rfl⟩ | h <;> rcases key q' _ hq' hm' with ⟨h', h''⟩ | h'
  · exact h'.symm
  · exact absurd h' (hfresh q' hq')
  · subst h''
    exact absurd h (hfresh q hq)
  · exact ht q q' m hq hq' h h'

/-- The paths below a blank node stop at one of its words. -/
theorem stop_install {level : ℕ} {j : ι} {r : List ι} (ht : IsTree child mem root d)
    (hp : reach child mem root p = some n) (hd : p.length ≤ d)
    (hb : ∀ j, child (mem c j) = none) (hc : c ≠ n) (hw : child w = some c) :
    stop child (write mem n i w) level root (p ++ i :: j :: r) =
      some (level + p.length + 1, mem c j) := by
  have hreach : reach child (write mem n i w) root (p ++ [i]) = some c := by
    rw [reach_concat, reach_write_self ht hp hd, Option.bind_some, write_self, hw]
  have hmem : write mem n i w c = mem c := write_of_node_ne hc
  rw [show p ++ i :: j :: r = (p ++ [i]) ++ j :: r by simp, stop_of_reach hreach (by simp)]
  cases r with
  | nil => simp [stop, hmem]; omega
  | cons k r => simp [stop, hmem, hb]; omega

end Install

end QuackOS.Radix
