import Mathlib.Data.Set.Card
import Mathlib.Data.Multiset.Count

/-!
# Counted references

Objects that leave memory with the last reference to them.  An object may hold one other, older
object; the other references come from outside, from handles and from calls that are under way.

* `Heap`, `take`, `drop`, `add` — the objects in memory, and what is done with references;
* `Counted` — every count is the number of references there are;
* `counted_single`, `Counted.take`, `Counted.drop`, `Counted.add` — the operations keep that.
-/

namespace QuackOS.References

/-- An object: the one it holds, and the count of references to it. -/
structure Node where
  holds : Option ℕ
  count : ℕ

/-- The objects in memory. -/
abbrev Heap := ℕ → Option Node

/-- A reference is taken. -/
def take (h : Heap) (d : ℕ) : Heap :=
  Function.update h d ((h d).map fun N => { N with count := N.count + 1 })

/-- A reference is dropped.  With the last one the object goes, and drops the one it has. -/
def drop : (fuel : ℕ) → Heap → ℕ → Heap
  | 0, h, _ => h
  | fuel + 1, h, d =>
    match h d with
    | none => h
    | some N =>
      if 1 < N.count then
        Function.update h d ((h d).map fun N => { N with count := N.count - 1 })
      else N.holds.elim (Function.update h d none) (drop fuel (Function.update h d none))

/-- A new object that holds `p`, with one reference to it. -/
def add (h : Heap) (next p : ℕ) : Heap := Function.update (take h p) next (some ⟨some p, 1⟩)

/-- The objects that hold this one. -/
def holders (h : Heap) (d : ℕ) : Set ℕ := {e | ∃ N, h e = some N ∧ N.holds = some d}

/-- **Every count is the number of references**: from objects in memory, and from outside. -/
structure Counted (h : Heap) (next : ℕ) (refs : Multiset ℕ) : Prop where
  bounded : ∀ d, h d ≠ none → d < next
  count : ∀ d N, h d = some N → N.count = (holders h d).ncard + refs.count d
  live : ∀ d ∈ refs, h d ≠ none
  older : ∀ e N p, h e = some N → N.holds = some p → p < e ∧ h p ≠ none

variable {h h' : Heap} {next d e p fuel : ℕ} {refs : Multiset ℕ} {N : Node}

theorem Counted.finite_holders (hc : Counted h next refs) (d : ℕ) : (holders h d).Finite := by
  refine (Set.finite_lt_nat next).subset ?_
  rintro e ⟨N, hN, -⟩
  exact hc.bounded e (by rw [hN]; exact Option.some_ne_none N)

/-- One object with one reference to it. -/
theorem counted_single (d : ℕ) :
    Counted (Function.update (fun _ => none) d (some ⟨none, 1⟩)) (d + 1) {d} := by
  have hself : ∀ e N, Function.update (fun _ => none) d (some (⟨none, 1⟩ : Node)) e = some N →
      e = d ∧ N = ⟨none, 1⟩ := by
    intro e N hN
    by_cases he : e = d
    · subst he
      rw [Function.update_self] at hN
      cases hN
      exact ⟨rfl, rfl⟩
    · rw [Function.update_of_ne he] at hN
      cases hN
  refine ⟨fun e he => ?_, fun e N hN => ?_, fun e he => ?_, fun e N p hN hp => ?_⟩
  · obtain ⟨N, hN⟩ := Option.ne_none_iff_exists'.mp he
    rw [(hself e N hN).1]
    exact Nat.lt_succ_self d
  · obtain ⟨rfl, rfl⟩ := hself e N hN
    have hnone : holders (Function.update (fun _ => none) e (some ⟨none, 1⟩)) e = ∅ := by
      refine Set.eq_empty_of_forall_notMem ?_
      rintro x ⟨N, hN, hp⟩
      rw [(hself x N hN).2] at hp
      cases hp
    rw [hnone, Set.ncard_empty, Multiset.count_singleton_self]
  · rw [Multiset.mem_singleton.mp he, Function.update_self]
    exact Option.some_ne_none _
  · rw [(hself e N hN).2] at hp
    cases hp

/-- Changing counts changes no holder. -/
theorem holders_congr (hsame : ∀ e, (h' e).map Node.holds = (h e).map Node.holds) (d : ℕ) :
    holders h' d = holders h d := by
  have hiff : ∀ (h : Heap) e, e ∈ holders h d ↔ (h e).map Node.holds = some (some d) := by
    intro h e
    simp [holders, Option.map_eq_some_iff]
  ext e
  rw [hiff, hiff, hsame e]

/-- One count is changed together with the references from outside. -/
theorem Counted.recount (hc : Counted h next refs) {refs' : Multiset ℕ} {k : ℕ} (hd : h d = some N)
    (hk : k = (holders h d).ncard + refs'.count d) (hrest : ∀ e ≠ d, refs'.count e = refs.count e) :
    Counted (Function.update h d (some { N with count := k })) next refs' := by
  have hsome : ∀ e, Function.update h d (some { N with count := k }) e ≠ none ↔ h e ≠ none := by
    intro e
    by_cases he : e = d
    · subst he
      simp [hd]
    · rw [Function.update_of_ne he]
  have hsame : ∀ e, (Function.update h d (some { N with count := k }) e).map Node.holds =
      (h e).map Node.holds := by
    intro e
    by_cases he : e = d
    · subst he
      simp [hd]
    · rw [Function.update_of_ne he]
  refine ⟨fun e he => hc.bounded e ((hsome e).mp he), fun e M hM => ?_, fun e he => ?_,
    fun e M p hM hp => ?_⟩
  · rw [holders_congr hsame]
    by_cases he : e = d
    · subst he
      rw [Function.update_self] at hM
      cases hM
      exact hk
    · rw [Function.update_of_ne he] at hM
      rw [hrest e he]
      exact hc.count e M hM
  · rw [hsome]
    by_cases hed : e = d
    · rw [hed, hd]
      exact Option.some_ne_none N
    · refine hc.live e ?_
      rw [← Multiset.one_le_count_iff_mem, ← hrest e hed]
      exact Multiset.one_le_count_iff_mem.mpr he
  · rw [hsome]
    have hmap : (h e).map Node.holds = some (some p) := by
      rw [← hsame e, hM, Option.map_some, hp]
    obtain ⟨M', hM', hp'⟩ := Option.map_eq_some_iff.mp hmap
    exact hc.older e M' p hM' hp'

/-- **Taking a reference.** -/
theorem Counted.take (hc : Counted h next refs) (hd : h d ≠ none) :
    Counted (take h d) next (d ::ₘ refs) := by
  obtain ⟨N, hN⟩ := Option.ne_none_iff_exists'.mp hd
  rw [References.take, hN, Option.map_some]
  refine hc.recount hN ?_ fun e he => Multiset.count_cons_of_ne he _
  rw [Multiset.count_cons_self, ← Nat.add_assoc, ← hc.count d N hN]

/-- The count of an object that is held from outside. -/
theorem Counted.count_of_cons (hc : Counted h next (d ::ₘ refs)) (hN : h d = some N) :
    N.count = (holders h d).ncard + refs.count d + 1 := by
  rw [hc.count d N hN, Multiset.count_cons_self, Nat.add_assoc]

/-- The references from outside once an object is gone: the one it held is among them. -/
def released (N : Node) (refs : Multiset ℕ) : Multiset ℕ := N.holds.elim refs fun p => p ::ₘ refs

theorem count_released (N : Node) (refs : Multiset ℕ) (e : ℕ) :
    (released N refs).count e = refs.count e + if N.holds = some e then 1 else 0 := by
  unfold released
  cases hh : N.holds with
  | none => simp
  | some p =>
    by_cases hpe : p = e
    · subst hpe
      simp
    · simp [hpe, Ne.symm hpe]

theorem mem_released : e ∈ released N refs ↔ N.holds = some e ∨ e ∈ refs := by
  unfold released
  cases N.holds with
  | none => simp
  | some p => simp [eq_comm]

theorem holders_erase (h : Heap) (d e : ℕ) :
    holders (Function.update h d none) e = holders h e \ {d} := by
  ext x
  by_cases hx : x = d
  · subst hx
    simp [holders]
  · simp [holders, hx]

/-- An object that goes leaves one reference less to what it held. -/
theorem Counted.ncard_holders_erase (hc : Counted h next refs) (hN : h d = some N) (e : ℕ) :
    (holders (Function.update h d none) e).ncard + (if N.holds = some e then 1 else 0) =
      (holders h e).ncard := by
  rw [holders_erase]
  split
  case isTrue hp => exact Set.ncard_sdiff_singleton_add_one ⟨N, hN, hp⟩ (hc.finite_holders e)
  case isFalse hp =>
    have hmem : d ∉ holders h e := by
      rintro ⟨N', hN', hp'⟩
      rw [hN] at hN'
      cases hN'
      exact hp hp'
    rw [Set.sdiff_singleton_eq_self hmem, Nat.add_zero]

theorem eq_some_of_erase {M : Node} (hM : Function.update h d none e = some M) :
    e ≠ d ∧ h e = some M := by
  by_cases he : e = d
  · subst he
    rw [Function.update_self] at hM
    cases hM
  · rw [Function.update_of_ne he] at hM
    exact ⟨he, hM⟩

/-- An object goes that nothing holds any more: the one it holds is held from outside now. -/
theorem Counted.remove (hc : Counted h next (d ::ₘ refs)) (hN : h d = some N)
    (hlast : N.count ≤ 1) : Counted (Function.update h d none) next (released N refs) := by
  have hcount := hc.count_of_cons hN
  have hnone : holders h d = ∅ := (Set.ncard_eq_zero (hc.finite_holders d)).mp (by omega)
  have hrefs : d ∉ refs := by
    rw [← Multiset.one_le_count_iff_mem]
    omega
  have hlive : ∀ e, e ≠ d → h e ≠ none → Function.update h d none e ≠ none := by
    intro e he h'
    rwa [Function.update_of_ne he]
  refine ⟨fun e he => ?_, fun e M hM => ?_, fun e he => ?_, fun e M p hM hp => ?_⟩
  · obtain ⟨M, hM⟩ := Option.ne_none_iff_exists'.mp he
    exact hc.bounded e (by rw [(eq_some_of_erase hM).2]; exact Option.some_ne_none M)
  · obtain ⟨hed, hM⟩ := eq_some_of_erase hM
    have hold := hc.count e M hM
    have hcard := hc.ncard_holders_erase hN e
    rw [Multiset.count_cons_of_ne hed] at hold
    rw [count_released]
    omega
  · rcases mem_released.mp he with hp | he
    · obtain ⟨hlt, hp⟩ := hc.older d N e hN hp
      exact hlive e hlt.ne hp
    · refine hlive e ?_ (hc.live e (Multiset.mem_cons_of_mem he))
      rintro rfl
      exact hrefs he
  · obtain ⟨hed, hM'⟩ := eq_some_of_erase hM
    obtain ⟨hlt, hlp⟩ := hc.older e M p hM' hp
    refine ⟨hlt, hlive p (fun hpd => ?_) hlp⟩
    have hmem : e ∈ holders h d := ⟨M, hM', by rw [hp, hpd]⟩
    rw [hnone] at hmem
    exact hmem

/-- **Dropping a reference.** -/
theorem Counted.drop (hc : Counted h next (d ::ₘ refs)) (hfuel : d < fuel) :
    Counted (drop fuel h d) next refs := by
  induction fuel generalizing h d refs with
  | zero => omega
  | succ fuel ih =>
    obtain ⟨N, hN⟩ := Option.ne_none_iff_exists'.mp (hc.live d (Multiset.mem_cons_self d refs))
    have hcount := hc.count_of_cons hN
    rw [References.drop, hN]
    dsimp only
    split
    · rw [Option.map_some]
      exact hc.recount hN (by omega) fun e he => (Multiset.count_cons_of_ne he _).symm
    · rename_i hlast
      have hrest := hc.remove hN (by omega)
      unfold released at hrest
      cases hh : N.holds with
      | none =>
        rw [hh] at hrest
        exact hrest
      | some p =>
        rw [hh] at hrest
        exact ih hrest (by have := (hc.older d N p hN hh).1; omega)

/-- A new object adds itself to the holders of the one it holds. -/
theorem holders_insert (hfresh : h next = none) (e : ℕ) :
    holders (Function.update h next (some ⟨some p, 1⟩)) e =
      if e = p then insert next (holders h e) else holders h e := by
  ext x
  by_cases hx : x = next
  · subst hx
    have hnot : x ∉ holders h e := by
      rintro ⟨M, hM, -⟩
      rw [hfresh] at hM
      cases hM
    by_cases hep : e = p
    · simp [holders, hep]
    · simpa [holders, hep, hfresh] using fun h => hep h.symm
  · by_cases hep : e = p
    · simp [holders, hep, hx]
    · simp [holders, hep, hx]

/-- Nothing holds what is not in memory. -/
theorem Counted.holders_of_none (hc : Counted h next refs) (he : h e = none) :
    holders h e = ∅ := by
  refine Set.eq_empty_iff_forall_notMem.mpr ?_
  rintro x ⟨X, hX, hxe⟩
  exact (hc.older x X e hX hxe).2 he

/-- The count of an old object after a new one was added that holds `p`. -/
theorem Counted.ncard_holders_insert (hc : Counted h next refs) (hfresh : h next = none) (e : ℕ) :
    (holders (Function.update h next (some ⟨some p, 1⟩)) e).ncard =
      (holders h e).ncard + if e = p then 1 else 0 := by
  rw [holders_insert hfresh]
  split
  case isTrue =>
    have hnot : next ∉ holders h e := by
      rintro ⟨X, hX, -⟩
      rw [hfresh] at hX
      cases hX
    exact Set.ncard_insert_of_notMem hnot (hc.finite_holders e)
  case isFalse => rfl

/-- **A new object** holds one that is in memory. -/
theorem Counted.add (hc : Counted h next refs) (hp : h p ≠ none) :
    Counted (add h next p) (next + 1) (next ::ₘ refs) := by
  have ht := hc.take hp
  have hfresh : References.take h p next = none := by
    by_contra hne
    exact absurd (ht.bounded next hne) (lt_irrefl next)
  have hpn : p < next := hc.bounded p hp
  have hnext : next ∉ refs := fun hmem => by
    have := hc.bounded next (hc.live next hmem)
    omega
  obtain ⟨h₁, hh₁⟩ : ∃ h₁, h₁ = References.take h p := ⟨_, rfl⟩
  rw [← hh₁] at ht hfresh
  rw [References.add, ← hh₁]
  have hlive : ∀ e, h₁ e ≠ none → Function.update h₁ next (some ⟨some p, 1⟩) e ≠ none := by
    intro e he
    rw [Function.update_of_ne]
    · exact he
    · rintro rfl
      exact he hfresh
  refine ⟨fun e he => ?_, fun e M hM => ?_, fun e he => ?_, fun e M q hM hq => ?_⟩
  · by_cases hen : e = next
    · omega
    · rw [Function.update_of_ne hen] at he
      exact (ht.bounded e he).trans (Nat.lt_succ_self next)
  · rw [ht.ncard_holders_insert hfresh]
    by_cases hen : e = next
    · -- nothing holds the new object yet
      subst hen
      rw [Function.update_self] at hM
      cases hM
      rw [if_neg (by omega), ht.holders_of_none hfresh, Set.ncard_empty, Multiset.count_cons_self,
        Multiset.count_eq_zero_of_notMem hnext]
    · rw [Function.update_of_ne hen] at hM
      have hold := ht.count e M hM
      rw [Multiset.count_cons_of_ne hen]
      by_cases hep : e = p
      · rw [if_pos hep, hold, hep, Multiset.count_cons_self]
        omega
      · rw [if_neg hep, hold, Multiset.count_cons_of_ne hep, Nat.add_zero]
  · rcases Multiset.mem_cons.mp he with rfl | he
    · rw [Function.update_self]
      exact Option.some_ne_none _
    · exact hlive e (ht.live e (Multiset.mem_cons_of_mem he))
  · by_cases hen : e = next
    · subst hen
      rw [Function.update_self] at hM
      cases hM
      cases hq
      exact ⟨hpn, hlive p (ht.live p (Multiset.mem_cons_self p refs))⟩
    · rw [Function.update_of_ne hen] at hM
      obtain ⟨hlt, hlq⟩ := ht.older e M q hM hq
      exact ⟨hlt, hlive q hlq⟩

end QuackOS.References
