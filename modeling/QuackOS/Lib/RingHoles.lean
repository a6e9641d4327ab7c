import Mathlib.Data.Multiset.AddSub
import Mathlib.Data.Nat.Find
import QuackOS.Lib.Ring

/-!
# Rings with holes

A ring out of whose array an item is taken wherever it stands, with both indices left where they
are, is no list any more.  What it still is, is a bag of items with a count.

* `bag` — the items in the slots;
* `Sparse` — the count is the number of items;
* `Sparse.push_iff` — a push adds its item to the bag exactly when the slot at the tail is empty;
* `Sparse.exists_next` — the first item from the head on, which a pop that skips holes takes.
-/

namespace QuackOS.Ring

variable {α : Type*} {cap : ℕ} {r r' : Ring α} {f : ℕ → Option α} {a b : α} {i : ℕ}

/-- The items in the first `cap` slots. -/
def bag (cap : ℕ) (f : ℕ → Option α) : Multiset α := ((List.range cap).filterMap f : List α)

/-- The indices are in range, and the count is the number of items. -/
structure Sparse (cap : ℕ) (r : Ring α) : Prop where
  head_lt : r.head < cap
  tail_lt : r.tail < cap
  count_eq : r.count = (bag cap r.items).card

theorem bag_empty : bag cap (empty : Ring α).items = 0 := by
  have hnil : (List.range cap).filterMap (empty : Ring α).items = [] :=
    List.filterMap_eq_nil_iff.mpr fun _ _ => rfl
  rw [bag, hnil]
  rfl

theorem sparse_empty (h : 0 < cap) : Sparse cap (empty : Ring α) := by
  refine ⟨h, h, ?_⟩
  rw [bag_empty]
  rfl

theorem mem_bag : a ∈ bag cap f ↔ ∃ i < cap, f i = some a := by
  simp [bag]

/-- An item taken out of its slot. -/
theorem bag_of_some (hi : i < cap) (ha : f i = some a) :
    bag cap f = a ::ₘ bag cap (Function.update f i none) := by
  have hperm := List.perm_cons_erase (List.mem_range.mpr hi)
  have hother : ((List.range cap).erase i).filterMap (Function.update f i none) =
      ((List.range cap).erase i).filterMap f := by
    refine List.filterMap_congr fun k hk => Function.update_of_ne ?_ _ _
    rintro rfl
    exact List.nodup_range.not_mem_erase hk
  rw [bag, bag, Multiset.coe_eq_coe.mpr (hperm.filterMap f),
    Multiset.coe_eq_coe.mpr (hperm.filterMap (Function.update f i none)),
    List.filterMap_cons_some ha, List.filterMap_cons_none (Function.update_self ..), hother]
  rfl

/-- An item put into an empty slot. -/
theorem bag_of_none (hi : i < cap) (hnone : f i = none) (a : α) :
    bag cap (Function.update f i (some a)) = a ::ₘ bag cap f := by
  rw [bag_of_some hi (Function.update_self i (some a) f), Function.update_idem,
    Function.update_eq_self_iff.mpr hnone.symm]

/-- An item put in the place of another. -/
theorem bag_replace (hi : i < cap) (hb : f i = some b) (a : α) :
    b ::ₘ bag cap (Function.update f i (some a)) = a ::ₘ bag cap f := by
  rw [bag_of_some hi (Function.update_self i (some a) f), Function.update_idem, bag_of_some hi hb,
    Multiset.cons_swap]

/-! ## Operations -/

theorem Sparse.count_le (h : Sparse cap r) : r.count ≤ cap := by
  rw [h.count_eq, bag, Multiset.coe_card]
  exact (List.length_filterMap_le ..).trans_eq List.length_range

/-- **A push adds its item just when the slot at the tail is empty**; else an item is lost. -/
theorem Sparse.push_iff (h : Sparse cap r) (hp : r.push cap a = some r') :
    bag cap r'.items = a ::ₘ bag cap r.items ↔ r.items r.tail = none := by
  obtain ⟨-, rfl⟩ := push_eq_some hp
  constructor
  · intro hadd
    dsimp only at hadd
    by_contra hsome
    obtain ⟨b, hb⟩ := Option.ne_none_iff_exists'.mp hsome
    have hcard := congrArg Multiset.card (bag_replace h.tail_lt hb a)
    rw [← hadd, Multiset.card_cons] at hcard
    omega
  · exact fun hnone => bag_of_none h.tail_lt hnone a

theorem Sparse.push (h : Sparse cap r) (hp : r.push cap a = some r') (hfree : r.items r.tail = none) :
    Sparse cap r' := by
  have hbag := (h.push_iff hp).mpr hfree
  obtain ⟨hroom, rfl⟩ := push_eq_some hp
  refine ⟨h.head_lt, Nat.mod_lt _ (Nat.zero_lt_of_lt hroom), ?_⟩
  show r.count + 1 = _
  rw [hbag, Multiset.card_cons, h.count_eq]

/-- The first item from the head on. -/
theorem Sparse.exists_next (h : Sparse cap r) (hpos : r.count ≠ 0) :
    ∃ d < cap, ∃ a, r.items ((r.head + d) % cap) = some a ∧
      ∀ k < d, r.items ((r.head + k) % cap) = none := by
  have hhead := h.head_lt
  rw [h.count_eq] at hpos
  obtain ⟨a, ha⟩ := Multiset.card_pos_iff_exists_mem.mp (Nat.pos_of_ne_zero hpos)
  obtain ⟨i, hi, ha⟩ := mem_bag.mp ha
  -- every slot is at some offset from the head
  have hoff : (r.head + (i + cap - r.head) % cap) % cap = i := by
    rw [Nat.add_mod_mod, show r.head + (i + cap - r.head) = i + cap by omega, Nat.add_mod_right,
      Nat.mod_eq_of_lt hi]
  have hex : ∃ d, r.items ((r.head + d) % cap) ≠ none :=
    ⟨(i + cap - r.head) % cap, by rw [hoff, ha]; exact Option.some_ne_none a⟩
  classical
  obtain ⟨b, hb⟩ := Option.ne_none_iff_exists'.mp (Nat.find_spec hex)
  refine ⟨Nat.find hex, ?_, b, hb, fun k hk => not_not.mp (Nat.find_min hex hk)⟩
  refine Nat.lt_of_le_of_lt (Nat.find_min' hex ?_) (Nat.mod_lt (i + cap - r.head) (by omega))
  rw [hoff, ha]
  exact Option.some_ne_none a

/-- An item is taken out of its slot, and the head goes anywhere in range. -/
theorem Sparse.takeAt (h : Sparse cap r) (hi : i < cap) (ha : r.items i = some a) {head : ℕ}
    (hhead : head < cap) :
    Sparse cap { r with
      items := Function.update r.items i none, head := head, count := r.count - 1 } := by
  refine ⟨hhead, h.tail_lt, ?_⟩
  show r.count - 1 = _
  rw [h.count_eq, bag_of_some hi ha, Multiset.card_cons]
  rfl

end QuackOS.Ring
