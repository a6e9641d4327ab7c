import QuackOS.Lib.Ring

/-!
# Removing from the middle of a ring

A ring that is `Tight` is filled and has nothing in the slots behind its tail.  Pushing and
popping keep it so.  `removeBy` moves the items behind the hole forward until it meets the tail,
and in a full ring the tail is the head:

* `Tight.removeBy` — the first item that meets the test is taken out of the list, unless the ring
  is full and the item is the oldest;
* `removeBy_oldest_of_full` — then the hole stays where it is, at the head.
-/

namespace QuackOS.Ring

variable {α : Type*} {cap : ℕ} {r r' : Ring α} {a : α} {p : α → Bool}

/-- A filled ring whose other slots are empty. -/
structure Tight (cap : ℕ) (r : Ring α) : Prop extends Filled cap r where
  vacant : ∀ i, r.count ≤ i → i < cap → r.items ((r.head + i) % cap) = none

theorem tight_empty (h : 0 < cap) : Tight cap (empty : Ring α) :=
  ⟨filled_empty h, fun _ _ _ => rfl⟩

theorem Tight.push (hr : Tight cap r) (h : r.push cap a = some r') : Tight cap r' := by
  refine ⟨(toList_push hr.toFilled h).1, fun i hi hlt => ?_⟩
  obtain ⟨hc, rfl⟩ := push_eq_some h
  have hne : (r.head + i) % cap ≠ r.tail := by
    intro heq
    rw [hr.tail_eq] at heq
    have := offset_inj hlt hc heq
    simp only at hi
    omega
  simp only at hi ⊢
  rw [Function.update_of_ne hne]
  exact hr.vacant i (by omega) hlt

theorem Tight.pop (hr : Tight cap r) : Tight cap (r.pop cap).2 := by
  cases hl : r.toList cap with
  | nil =>
    rw [pop_nil hr.toFilled hl]
    exact hr
  | cons b l =>
    obtain ⟨r', hpop, htake, hfilled, -⟩ := pop_cons hr.toFilled hl
    rw [hpop]
    refine ⟨hfilled, fun i hi hlt => ?_⟩
    have hlen := length_toList hr.toFilled
    rw [hl, List.length_cons] at hlen
    obtain rfl : (r.take cap).2 = r' := by rw [htake]
    simp only [take] at hi ⊢
    rw [Nat.mod_add_mod, Nat.add_assoc, Nat.add_comm 1 i]
    -- the slot that became free is the last one now
    by_cases hlast : i + 1 = cap
    · rw [hlast, Nat.add_mod_right, Nat.mod_eq_of_lt hr.head_lt, Function.update_self]
    · have hne : (r.head + (i + 1)) % cap ≠ r.head := by
        intro heq
        have heq' : (r.head + (i + 1)) % cap = (r.head + 0) % cap := by
          rw [heq, Nat.add_zero, Nat.mod_eq_of_lt hr.head_lt]
        have := offset_inj (by omega) (by omega) heq'
        omega
      rw [Function.update_of_ne hne]
      exact hr.vacant (i + 1) (by omega) (by omega)

/-! ## Closing the hole -/

/-- An offset is that of the tail just when it is the count, up to the size of the ring. -/
theorem offset_eq_tail_iff {h j n : ℕ} (hj : j ≤ n) (hn : n ≤ cap) (h0 : n < cap ∨ 0 < j) :
    (h + j) % cap = (h + n) % cap ↔ j = n := by
  constructor
  · intro heq
    rcases Nat.lt_or_ge n cap with hlt | hge
    · exact offset_inj (by omega) hlt heq
    · obtain rfl : n = cap := by omega
      by_contra hne
      have heq' : (h + j) % n = (h + 0) % n := by rw [heq, Nat.add_mod_right, Nat.add_zero]
      have := offset_inj (by omega) (by omega) heq'
      omega
  · rintro rfl
    rfl

/-- `items'` is `items` with the hole at offset `j` closed: what was behind it has moved up, and the
last of the `n` slots is empty. -/
def Closes (cap h n j : ℕ) (items items' : ℕ → Option α) : Prop :=
  ∀ k < cap, items' ((h + k) % cap) =
    if k + 1 = n then none
    else if j ≤ k ∧ k + 1 < n then items ((h + (k + 1)) % cap)
    else items ((h + k) % cap)

/-- One step of closing: the next item moves into the hole. -/
def slide (cap h j : ℕ) (items : ℕ → Option α) : ℕ → Option α :=
  Function.update (Function.update items ((h + j) % cap) (items ((h + (j + 1)) % cap)))
    ((h + (j + 1)) % cap) none

section Closing

variable {h n j k : ℕ} {items items' : ℕ → Option α}

theorem slide_at (hj : j + 1 < cap) (hk : k < cap) : slide cap h j items ((h + k) % cap) =
    if k = j + 1 then none
    else if k = j then items ((h + (j + 1)) % cap) else items ((h + k) % cap) := by
  unfold slide
  split
  · rename_i heq
    rw [heq, Function.update_self]
  · rename_i hne
    rw [Function.update_of_ne fun heq => hne (offset_inj hk hj heq)]
    split
    · rename_i heq
      rw [heq, Function.update_self]
    · rename_i hne'
      rw [Function.update_of_ne fun heq => hne' (offset_inj hk (by omega) heq)]

/-- A hole at the last offset is closed. -/
theorem Closes.last (hhole : items ((h + j) % cap) = none) (hj : j + 1 = n) :
    Closes cap h n j items items := by
  subst hj
  intro k _
  split
  · rename_i hk
    obtain rfl : k = j := by omega
    exact hhole
  · rw [if_neg (by omega)]

/-- A hole is closed once the next one is. -/
theorem Closes.of_slide (hj : j + 1 < n) (hn : n ≤ cap)
    (hc : Closes cap h n (j + 1) (slide cap h j items) items') : Closes cap h n j items items' := by
  have hat : ∀ k < cap, slide cap h j items ((h + k) % cap) = _ :=
    fun k hk => slide_at (by omega) hk
  intro k hk
  rw [hc k hk]
  by_cases hkn : k + 1 = n
  · rw [if_pos hkn, if_pos hkn]
  rw [if_neg hkn, if_neg hkn]
  rcases Nat.lt_trichotomy k j with hlt | rfl | hgt
  · rw [if_neg (by omega), if_neg (by omega), hat k hk, if_neg (by omega), if_neg (by omega)]
  · rw [if_neg (by omega), if_pos ⟨le_rfl, by omega⟩, hat k hk, if_neg (by omega), if_pos rfl]
  · by_cases hkn' : k + 1 < n
    · rw [if_pos ⟨hgt, hkn'⟩, if_pos ⟨by omega, hkn'⟩, hat _ (by omega), if_neg (by omega),
        if_neg (by omega)]
    · rw [if_neg (by omega), if_neg (by omega), hat k hk, if_neg (by omega), if_neg (by omega)]

/-- **The hole at offset `j` of `n` items moves to the last of them.** -/
theorem compact_offsets (hn : n ≤ cap) (fuel : ℕ) (items : ℕ → Option α) (hj : j < n)
    (h0 : n < cap ∨ 0 < j) (hfuel : n ≤ fuel + j + 1) (hhole : items ((h + j) % cap) = none) :
    (compact cap ((h + n) % cap) fuel items ((h + j) % cap)).2 = (h + (n - 1)) % cap ∧
      Closes cap h n j items
        (compact cap ((h + n) % cap) fuel items ((h + j) % cap)).1 := by
  have hend : j + 1 = n → (h + j) % cap = (h + (n - 1)) % cap := by
    rintro rfl
    rfl
  induction fuel generalizing items j with
  | zero => exact ⟨hend (by omega), .last hhole (by omega)⟩
  | succ fuel ih =>
    have hnext : ((h + j) % cap + 1) % cap = (h + (j + 1)) % cap := by
      rw [Nat.mod_add_mod, Nat.add_assoc]
    have hcur : (h + j) % cap ≠ (h + n) % cap := by
      rw [ne_eq, offset_eq_tail_iff hj.le hn h0]
      omega
    unfold compact
    simp only [hnext]
    by_cases hstop : j + 1 = n
    · rw [if_neg]
      · exact ⟨hend hstop, .last hhole hstop⟩
      · rw [hstop]
        exact fun hc => hc.2 rfl
    · have htail : (h + (j + 1)) % cap ≠ (h + n) % cap := by
        rw [ne_eq, offset_eq_tail_iff hj hn (by omega)]
        exact hstop
      rw [if_pos ⟨hcur, htail⟩]
      have hhole' : slide cap h j items ((h + (j + 1)) % cap) = none := Function.update_self ..
      obtain ⟨h2, h1⟩ := ih (slide cap h j items) (by omega) (by omega) (by omega) hhole'
        (by rintro rfl; rfl)
      exact ⟨h2, h1.of_slide (by omega) hn⟩

end Closing

/-! ## Removing -/

/-- A list of slots without one of them. -/
theorem filterMap_range_skip {g : ℕ → Option α} {i n : ℕ} (hi : i < n) (ha : g i = some a) :
    (List.range n).filterMap g =
        (List.range i).filterMap g ++ a :: (List.range (n - 1 - i)).filterMap (fun k => g (i + 1 + k)) ∧
      (List.range (n - 1)).filterMap (fun k => if i ≤ k then g (k + 1) else g k) =
        (List.range i).filterMap g ++ (List.range (n - 1 - i)).filterMap fun k => g (i + 1 + k) := by
  have hn : n = i + (1 + (n - 1 - i)) := by omega
  have hn' : n - 1 = i + (n - 1 - i) := by omega
  constructor
  · conv_lhs => rw [hn]
    rw [List.range_add, List.filterMap_append, List.range_add, List.map_append,
      List.filterMap_append]
    congr 1
    simp [ha, List.filterMap_map, Function.comp_def, Nat.add_assoc]
  · conv_lhs => rw [hn']
    rw [List.range_add, List.filterMap_append, List.filterMap_map]
    congr 1
    · refine List.filterMap_congr fun k hk => ?_
      rw [List.mem_range] at hk
      rw [if_neg (by omega)]
    · refine List.filterMap_congr fun k _ => ?_
      rw [Function.comp_apply, if_pos (by omega)]
      congr 1
      omega

/-- What the scan finds: an item that meets the test, and before it none that does. -/
theorem Tight.found (hr : Tight cap r) {i : ℕ}
    (hf : (List.range cap).find? (fun i => (r.items ((r.head + i) % cap)).any p) = some i) :
    i < r.count ∧ ∃ a, r.items ((r.head + i) % cap) = some a ∧ p a = true ∧
      ∀ b ∈ (List.range i).filterMap fun k => r.items ((r.head + k) % cap), ¬ p b = true := by
  obtain ⟨hany, hlt, hbefore⟩ := List.find?_range_eq_some.mp hf
  rw [List.mem_range] at hlt
  obtain ⟨a, ha, hpa⟩ := (Option.any_eq_true _ _).mp hany
  refine ⟨?_, a, ha, hpa, fun b hb => ?_⟩
  · by_contra hge
    rw [hr.vacant i (by omega) hlt] at ha
    cases ha
  · obtain ⟨k, hk, hb⟩ := List.mem_filterMap.mp hb
    have := hbefore k (List.mem_range.mp hk)
    rw [hb, Option.any_some] at this
    simpa using this

/-- Where the scan finds nothing, no item of the list meets the test. -/
theorem Tight.not_found (hr : Tight cap r)
    (hf : (List.range cap).find? (fun i => (r.items ((r.head + i) % cap)).any p) = none) :
    ∀ b ∈ r.toList cap, ¬ p b = true := by
  intro b hb
  have hcount := hr.count_le
  obtain ⟨i, hi, hb⟩ := List.mem_filterMap.mp hb
  rw [List.mem_range] at hi
  rw [List.find?_eq_none] at hf
  have := hf i (List.mem_range.mpr (by omega))
  rw [hb, Option.any_some] at this
  exact this

/-- **Removing takes the first item that meets the test out of the list**, unless the ring is
full and that is the oldest. -/
theorem Tight.removeBy (hr : Tight cap r) (hcap : cap < 2 ^ 64)
    (hok : r.count < cap ∨ ∀ a, r.items r.head = some a → p a = false) :
    Tight cap (r.removeBy cap p) ∧ (r.removeBy cap p).toList cap = (r.toList cap).eraseP p := by
  have hcount := hr.count_le
  unfold Ring.removeBy
  cases hf : (List.range cap).find? fun i => (r.items ((r.head + i) % cap)).any p with
  | none => exact ⟨hr, (List.eraseP_of_forall_not (hr.not_found hf)).symm⟩
  | some i =>
    obtain ⟨hi, a, ha, hpa, hfirst⟩ := hr.found hf
    have h0 : r.count < cap ∨ 0 < i := by
      rcases hok with hlt | holdest
      · exact Or.inl hlt
      · refine Or.inr (Nat.pos_of_ne_zero ?_)
        rintro rfl
        rw [Nat.add_zero, Nat.mod_eq_of_lt hr.head_lt] at ha
        rw [holdest a ha] at hpa
        cases hpa
    set items := Function.update r.items ((r.head + i) % cap) none with hitems
    have hat : ∀ k < cap, k ≠ i → items ((r.head + k) % cap) = r.items ((r.head + k) % cap) := by
      intro k hk hne
      rw [hitems, Function.update_of_ne fun heq => hne (offset_inj hk (by omega) heq)]
    have hc : (r.count + 2 ^ 64 - 1) % 2 ^ 64 = r.count - 1 := by omega
    have hhole : items ((r.head + i) % cap) = none := Function.update_self ..
    obtain ⟨h2, h1⟩ := compact_offsets hcount cap items hi h0 (by omega) hhole
    rw [← hr.tail_eq] at h1 h2
    simp only [hc]
    -- what each slot holds afterwards
    have hslot : ∀ k < r.count - 1, (compact cap r.tail cap items ((r.head + i) % cap)).1
        ((r.head + k) % cap) = if i ≤ k then r.items ((r.head + (k + 1)) % cap)
          else r.items ((r.head + k) % cap) := by
      intro k hk
      rw [h1 k (by omega), if_neg (by omega)]
      split
      · rename_i hc
        rw [if_pos hc.1, hat _ (by omega) (by omega)]
      · rw [if_neg (by omega), hat k (by omega) (by omega)]
    refine ⟨⟨⟨by simp only; omega, hr.head_lt, h2, fun k hk => ?_⟩, fun k hk hkc => ?_⟩, ?_⟩
    · simp only at hk ⊢
      rw [hslot k hk]
      split
      · exact hr.isSome _ (by omega)
      · exact hr.isSome _ (by omega)
    · simp only at hk ⊢
      rw [h1 k hkc]
      split
      · rfl
      · rw [if_neg (by omega), hat k hkc (by omega)]
        exact hr.vacant k (by omega) hkc
    · unfold toList
      obtain ⟨hold, hnew⟩ := filterMap_range_skip (g := fun k => r.items ((r.head + k) % cap)) hi ha
      simp only
      rw [List.filterMap_congr fun k hk => hslot k (List.mem_range.mp hk), hnew, hold,
        List.eraseP_append_right _ hfirst, List.eraseP_cons_of_pos hpa]

/-- **The oldest item of a full ring** leaves a hole at the head. -/
theorem removeBy_oldest_of_full (hr : Tight cap r) (hfull : r.count = cap) (hcap : cap < 2 ^ 64)
    (ha : r.items r.head = some a) (hpa : p a = true) :
    (r.removeBy cap p).items (r.removeBy cap p).head = none ∧
      (r.removeBy cap p).count = cap - 1 := by
  have hpos : 0 < cap := by
    have := hr.head_lt
    omega
  have hf : (List.range cap).find? (fun i => (r.items ((r.head + i) % cap)).any p) = some 0 := by
    refine List.find?_range_eq_some.mpr ⟨?_, List.mem_range.mpr hpos, fun j hj => by omega⟩
    rw [Nat.add_zero, Nat.mod_eq_of_lt hr.head_lt, ha, Option.any_some, hpa]
  have htail : r.tail = r.head := by
    rw [hr.tail_eq, hfull, Nat.add_mod_right, Nat.mod_eq_of_lt hr.head_lt]
  have hstop : compact cap r.tail cap (Function.update r.items r.head none) r.head =
      (Function.update r.items r.head none, r.head) := by
    obtain ⟨n, rfl⟩ := Nat.exists_eq_succ_of_ne_zero (Nat.pos_iff_ne_zero.mp hpos)
    rw [compact, if_neg]
    exact fun hc => hc.1 htail.symm
  unfold Ring.removeBy
  rw [hf]
  simp only [Nat.add_zero, Nat.mod_eq_of_lt hr.head_lt, hstop]
  exact ⟨Function.update_self .., by omega⟩

end QuackOS.Ring
