import Mathlib.Data.List.Basic

/-!
# Editing a line

What a terminal makes of the keys that are pressed.  Characters collect in a line of limited length
until a key delivers it; what is delivered stays delivered.

* `Key`, `Editor.press` — what a key does to the line that is being edited;
* `Editor.run` — many keys;
* `Editor.run_prefix` — **deliveries are only ever added to**;
* `deliveries` — what an empty line and these keys deliver.
-/

namespace QuackOS.LineEdit

/-- What a key does: a character goes into the line, the last one is taken out of it, the line is
delivered with a last character, or it is delivered as it is. -/
inductive Key (α : Type*) where
  | insert (a : α)
  | erase
  | enter (a : α)
  | close

/-- What a reader gets: characters, and the end of the file. -/
inductive Delivery (α : Type*) where
  | item (a : α)
  | eof
  deriving DecidableEq

/-- What was delivered so far, and the line. -/
structure Editor (α : Type*) where
  done : List (Delivery α)
  line : List α

namespace Editor

variable {α : Type*} {cap : ℕ} {e : Editor α} {k : Key α} {ks ks' : List (Key α)}

/-- One key, with room for `cap` characters before the last one.  To deliver an empty line as it is
means the end of the file. -/
def press (cap : ℕ) (e : Editor α) : Key α → Editor α
  | .insert a => if e.line.length < cap then ⟨e.done, e.line ++ [a]⟩ else e
  | .erase => ⟨e.done, e.line.dropLast⟩
  | .enter a => ⟨e.done ++ (e.line ++ [a]).map .item, []⟩
  | .close => if e.line.isEmpty then ⟨e.done ++ [.eof], []⟩ else ⟨e.done ++ e.line.map .item, []⟩

/-- Many keys. -/
def run (cap : ℕ) (ks : List (Key α)) (e : Editor α) : Editor α := ks.foldl (press cap) e

@[simp] theorem run_nil : run cap [] e = e := rfl

@[simp] theorem run_cons : run cap (k :: ks) e = run cap ks (e.press cap k) := rfl

theorem run_append : run cap (ks ++ ks') e = run cap ks' (run cap ks e) := List.foldl_append

theorem press_prefix : e.done <+: (e.press cap k).done := by
  cases k with
  | insert a =>
    rw [press]
    split
    · exact List.prefix_refl _
    · exact List.prefix_refl _
  | erase => exact List.prefix_refl _
  | enter a => exact List.prefix_append _ _
  | close =>
    rw [press]
    split
    · exact List.prefix_append _ _
    · exact List.prefix_append _ _

theorem run_prefix (ks : List (Key α)) (e : Editor α) : e.done <+: (run cap ks e).done := by
  induction ks generalizing e with
  | nil => exact List.prefix_refl _
  | cons k ks ih => exact press_prefix.trans (ih (e.press cap k))

theorem press_done (ds : List (Delivery α)) (e : Editor α) (k : Key α) :
    press cap ⟨ds ++ e.done, e.line⟩ k = ⟨ds ++ (e.press cap k).done, (e.press cap k).line⟩ := by
  cases k with
  | insert a =>
    simp only [press]
    split
    · rfl
    · rfl
  | erase => rfl
  | enter a => simp only [press, List.append_assoc]
  | close =>
    simp only [press]
    split
    · simp only [List.append_assoc]
    · simp only [List.append_assoc]

/-- What was delivered before does not matter. -/
theorem run_done (ds : List (Delivery α)) (ks : List (Key α)) (e : Editor α) :
    run cap ks ⟨ds ++ e.done, e.line⟩ = ⟨ds ++ (run cap ks e).done, (run cap ks e).line⟩ := by
  induction ks generalizing e with
  | nil => rfl
  | cons k ks ih => rw [run_cons, run_cons, press_done, ih]

end Editor

/-- What these keys deliver, from an empty line on. -/
def deliveries {α : Type*} (cap : ℕ) (ks : List (Key α)) : List (Delivery α) :=
  (Editor.run cap ks ⟨[], []⟩).done

end QuackOS.LineEdit
