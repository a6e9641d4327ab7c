import Mathlib.Data.List.Sort

/-!
# Queues sorted by a key

A queue kept in the order of a key, where an entry is inserted behind the entries of the same key
and the entries up to a bound are taken from the front.  On a sorted queue the front part
`dropWhile` leaves is a filter (`Sorted.dropWhile_eq_filter`), and the smallest key is the
first (`Sorted.le_of_head`).
-/

namespace QuackOS.SortedQueue

variable {α κ : Type*} [LinearOrder κ] {key : α → κ} {l : List α} {a b : α} {k : κ}

/-- The keys never fall along the queue. -/
def Sorted (key : α → κ) (l : List α) : Prop := l.Pairwise fun a b => key a ≤ key b

/-- `a` goes before the first entry with a larger key. -/
def insert (key : α → κ) (a : α) (l : List α) : List α :=
  l.takeWhile (fun b => key b ≤ key a) ++ a :: l.dropWhile (fun b => key b ≤ key a)

@[simp] theorem insert_nil : insert key a [] = [a] := rfl

theorem insert_cons_of_le (h : key b ≤ key a) :
    insert key a (b :: l) = b :: insert key a l := by
  simp [insert, h]

theorem insert_cons_of_lt (h : key a < key b) : insert key a (b :: l) = a :: b :: l := by
  simp [insert, not_le.mpr h]

/-- An insertion adds one entry. -/
theorem insert_perm (key : α → κ) (a : α) (l : List α) : (insert key a l).Perm (a :: l) := by
  have h : (insert key a l).Perm
      (a :: (l.takeWhile (fun b => key b ≤ key a) ++ l.dropWhile fun b => key b ≤ key a)) :=
    List.perm_middle
  rwa [List.takeWhile_append_dropWhile] at h

theorem mem_insert : b ∈ insert key a l ↔ b = a ∨ b ∈ l := by
  rw [(insert_perm key a l).mem_iff, List.mem_cons]

theorem sorted_nil : Sorted key [] := List.Pairwise.nil

theorem Sorted.insert (h : Sorted key l) (a : α) : Sorted key (insert key a l) := by
  induction l with
  | nil => exact List.pairwise_singleton _ a
  | cons b l ih =>
    obtain ⟨hb, hl⟩ := List.pairwise_cons.mp h
    rcases le_or_gt (key b) (key a) with hle | hlt
    · rw [insert_cons_of_le hle]
      refine List.pairwise_cons.mpr ⟨fun c hc => ?_, ih hl⟩
      rcases mem_insert.mp hc with rfl | hc
      · exact hle
      · exact hb c hc
    · rw [insert_cons_of_lt hlt]
      refine List.pairwise_cons.mpr ⟨fun c hc => ?_, h⟩
      rcases List.mem_cons.mp hc with rfl | hc
      · exact hlt.le
      · exact hlt.le.trans (hb c hc)

theorem Sorted.sublist {l' : List α} (h : Sorted key l) (hsub : l'.Sublist l) : Sorted key l' :=
  List.Pairwise.sublist hsub h

/-- The first key is the smallest. -/
theorem Sorted.le_of_head (h : Sorted key l) (ha : l.head? = some a) (hb : b ∈ l) :
    key a ≤ key b := by
  cases l with
  | nil => cases ha
  | cons c l =>
    cases ha
    rcases List.mem_cons.mp hb with rfl | hb
    · exact le_refl _
    · exact (List.pairwise_cons.mp h).1 b hb

/-- Taking the entries up to a bound from the front takes all of them. -/
theorem Sorted.dropWhile_eq_filter (h : Sorted key l) (k : κ) :
    l.dropWhile (fun b => key b ≤ k) = l.filter fun b => k < key b := by
  induction l with
  | nil => rfl
  | cons b l ih =>
    obtain ⟨hb, hl⟩ := List.pairwise_cons.mp h
    rcases le_or_gt (key b) k with hle | hlt
    · simp [hle, not_lt.mpr hle, ih hl]
    · have hall : ∀ c ∈ b :: l, decide (k < key c) = true := by
        intro c hc
        rcases List.mem_cons.mp hc with rfl | hc
        · exact decide_eq_true hlt
        · exact decide_eq_true (hlt.trans_le (hb c hc))
      rw [List.filter_eq_self.mpr hall]
      simp [not_le.mpr hlt]

/-- Where an insertion lands: in front exactly when no entry is passed. -/
theorem head?_insert (key : α → κ) (a : α) (l : List α) :
    (insert key a l).head? = if l.findIdx (fun b => key a < key b) = 0 then some a else l.head? := by
  cases l with
  | nil => rfl
  | cons b l =>
    rcases le_or_gt (key b) (key a) with hle | hlt
    · rw [insert_cons_of_le hle]
      simp [List.findIdx_cons, not_lt.mpr hle]
    · rw [insert_cons_of_lt hlt]
      simp [List.findIdx_cons, hlt]

end QuackOS.SortedQueue
