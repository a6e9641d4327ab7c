import Mathlib.Algebra.GroupWithZero.Nat
import Mathlib.Data.List.Basic
import Mathlib.Data.List.TakeWhile

/-!
# Paths

Paths as lists of characters, with one that separates components and one that the names `.` and
`..` are made of.

* `components` — the parts of a path between separators that are not empty;
* `resolve`, `normalise` — the components with `.` and `..` resolved by the names alone;
* `resolveWithin`, `resolveAllWithin_eq` — the same on a stack with room for so many components;
* `render`, `components_render` — a path with given components;
* `isCanonical_render` — **a path made of plain components is canonical**: it has no empty component
  and no `.` or `..`.
-/

namespace QuackOS.Paths

variable {α : Type*} [DecidableEq α] (sep dot : α)

/-- The parts of a path that are not empty. -/
def components (path : List α) : List (List α) := (path.splitOn sep).filter fun c => !c.isEmpty

/-- One component, behind those that are there: `.` stays, `..` goes back. -/
def resolve (stack : List (List α)) (c : List α) : List (List α) :=
  if c = [dot] then stack else if c = [dot, dot] then stack.dropLast else stack ++ [c]

/-- Many components. -/
def resolveAll (stack cs : List (List α)) : List (List α) := cs.foldl (resolve dot) stack

/-- One component, behind those that are there if these are fewer than `n`. -/
def resolveWithin (n : ℕ) (stack : List (List α)) (c : List α) : List (List α) :=
  if c = [dot] then stack
  else if c = [dot, dot] then stack.dropLast
  else if stack.length < n then stack ++ [c]
  else stack

/-- Many components, of which no more than `n` can stand at once. -/
def resolveAllWithin (n : ℕ) (stack cs : List (List α)) : List (List α) :=
  cs.foldl (resolveWithin dot n) stack

/-- The absolute path with these components. -/
def render (cs : List (List α)) : List α := if cs.isEmpty then [sep] else cs.flatMap (sep :: ·)

/-- The lexical normal form of an absolute path. -/
def normalise (path : List α) : List α := render sep (resolveAll dot [] (components sep path))

/-- A path seen from a directory. -/
def join (cwd path : List α) : List α :=
  if path.head? = some sep then path
  else if cwd.getLast? = some sep then cwd ++ path
  else cwd ++ sep :: path

/-- A component that a normalised path may have. -/
structure Plain (c : List α) : Prop where
  ne_nil : c ≠ []
  sep_notMem : sep ∉ c
  ne_dot : c ≠ [dot]
  ne_dotdot : c ≠ [dot, dot]

/-- The path starts with a separator, and no part of it is empty, `.` or `..`; the path that is only
a separator has no parts. -/
structure IsCanonical (path : List α) : Prop where
  head : path.head? = some sep
  parts : path ≠ [sep] → ∀ c ∈ path.tail.splitOn sep, Plain sep dot c

section Components

variable {sep dot} {cs : List (List α)} {c path path' : List α}

/-- The parts of a path are made of what is in it, except separators. -/
theorem mem_splitOn (h : c ∈ path.splitOn sep) : sep ∉ c ∧ c ⊆ path := by
  induction path generalizing c with
  | nil =>
    rw [List.splitOn_nil, List.mem_singleton] at h
    rw [h]
    exact ⟨List.not_mem_nil, List.nil_subset _⟩
  | cons x path ih =>
    rw [List.splitOn_cons_eq_if_modifyHead] at h
    split at h
    · rcases List.mem_cons.mp h with rfl | h
      · exact ⟨List.not_mem_nil, List.nil_subset _⟩
      · exact ⟨(ih h).1, List.subset_cons_of_subset x (ih h).2⟩
    · rename_i hx
      cases hs : path.splitOn sep with
      | nil => exact absurd hs (List.splitOn_ne_nil sep path)
      | cons p ps =>
        rw [hs] at h ih
        rcases List.mem_cons.mp h with rfl | h
        · obtain ⟨hsep, hsub⟩ := ih (List.mem_cons_self ..)
          refine ⟨?_, List.cons_subset_cons x hsub⟩
          rw [List.mem_cons, not_or]
          exact ⟨fun heq => hx (by simp [heq]), hsep⟩
        · obtain ⟨hsep, hsub⟩ := ih (List.mem_cons_of_mem p h)
          exact ⟨hsep, List.subset_cons_of_subset x hsub⟩

theorem mem_components (h : c ∈ components sep path) : c ≠ [] ∧ sep ∉ c := by
  obtain ⟨hmem, hne⟩ := List.mem_filter.mp h
  exact ⟨by simpa using hne, (mem_splitOn hmem).1⟩

theorem subset_of_mem_components (h : c ∈ components sep path) : c ⊆ path :=
  (mem_splitOn (List.mem_filter.mp h).1).2

@[simp] theorem components_nil : components sep ([] : List α) = [] := by
  simp [components]

theorem components_append (path path' : List α) :
    components sep (path ++ sep :: path') = components sep path ++ components sep path' := by
  rw [components, List.splitOn_append_cons_self, List.filter_append, ← components, ← components]

@[simp] theorem components_sep_cons (path : List α) :
    components sep (sep :: path) = components sep path := components_append [] path

/-- A name without separators is one component. -/
theorem components_name (hne : c ≠ []) (hc : sep ∉ c) : components sep c = [c] := by
  have hfull : c.isEmpty = false := by simpa using hne
  rw [components, List.splitOn_eq_singleton hc, List.filter_singleton, hfull]
  rfl

theorem components_name_cons (hne : c ≠ []) (hc : sep ∉ c) (path : List α) :
    components sep (c ++ sep :: path) = c :: components sep path := by
  rw [components_append, components_name hne hc, List.singleton_append]

/-- Separators at the front do not count. -/
theorem components_dropWhile (path : List α) :
    components sep (path.dropWhile (· == sep)) = components sep path := by
  induction path with
  | nil => rfl
  | cons x path ih =>
    by_cases hx : x = sep
    · rw [hx, List.dropWhile_cons_of_pos (by simp), components_sep_cons, ih]
    · rw [List.dropWhile_cons_of_neg (by simpa using hx)]

/-- A path that does not start with a separator starts with its first component. -/
theorem components_takeWhile {x : α} (hx : x ≠ sep) (path : List α) :
    components sep (x :: path) =
      (x :: path).takeWhile (· != sep) :: components sep ((x :: path).dropWhile (· != sep)) := by
  have hname : sep ∉ (x :: path).takeWhile (· != sep) := fun h => by
    simpa using List.mem_takeWhile_imp h
  have hne : (x :: path).takeWhile (· != sep) ≠ [] := by
    rw [List.takeWhile_cons_of_pos (by simpa using hx)]
    exact List.cons_ne_nil _ _
  have hsplit := List.takeWhile_append_dropWhile (p := (· != sep)) (l := x :: path)
  cases hrest : (x :: path).dropWhile (· != sep) with
  | nil =>
    rw [hrest, List.append_nil] at hsplit
    rw [components_nil, hsplit]
    exact components_name (List.cons_ne_nil _ _) (hsplit ▸ hname)
  | cons y rest =>
    have hy : y = sep := by
      have hfirst : (x :: path).dropWhile (· != sep) ≠ [] := by simp [hrest]
      have hhead := List.head_dropWhile_not (· != sep) hfirst
      simpa [hrest] using hhead
    rw [hrest, hy] at hsplit
    rw [hy, components_sep_cons, ← components_name_cons hne hname, hsplit]

/-- The components of a path that is seen from a directory. -/
theorem components_join (cwd path : List α) : components sep (join sep cwd path) =
    if path.head? = some sep then components sep path
    else components sep cwd ++ components sep path := by
  rw [join]
  split
  · rfl
  · split
    case isTrue hlast =>
      obtain ⟨pre, rfl⟩ := List.getLast?_eq_some_iff.mp hlast
      rw [List.append_assoc, List.singleton_append, components_append, components_append,
        components_nil, List.append_nil]
    case isFalse => rw [components_append]

end Components

/-! ## Lengths -/

section Lengths

variable {sep dot} {cs stack : List (List α)} {path : List α}

/-- The length of components with a separator in front of each. -/
def weight (cs : List (List α)) : ℕ := (cs.map fun c => c.length + 1).sum

omit [DecidableEq α] in
@[simp] theorem weight_append (cs cs' : List (List α)) :
    weight (cs ++ cs') = weight cs + weight cs' := by
  simp [weight]

omit [DecidableEq α] in
theorem weight_sublist {cs' : List (List α)} (h : cs.Sublist cs') : weight cs ≤ weight cs' := by
  induction h with
  | slnil => exact Nat.le_refl _
  | cons c _ ih =>
    rw [weight, weight, List.map_cons, List.sum_cons]
    exact Nat.le_trans ih (Nat.le_add_left ..)
  | cons_cons c _ ih =>
    rw [weight, weight, List.map_cons, List.map_cons, List.sum_cons, List.sum_cons]
    exact Nat.add_le_add_left ih _

theorem weight_splitOn (path : List α) : weight (path.splitOn sep) = path.length + 1 := by
  induction path with
  | nil => simp [weight]
  | cons x path ih =>
    rw [List.splitOn_cons_eq_if_modifyHead]
    split
    · rw [weight, List.map_cons, List.sum_cons, ← weight, ih, List.length_nil, List.length_cons]
      omega
    · cases hs : path.splitOn sep with
      | nil => exact absurd hs (List.splitOn_ne_nil sep path)
      | cons p ps =>
        rw [hs] at ih
        simp only [weight, List.modifyHead_cons, List.map_cons, List.sum_cons,
          List.length_cons] at ih ⊢
        omega

theorem weight_components (path : List α) : weight (components sep path) ≤ path.length + 1 := by
  have hparts : weight (path.splitOn sep) = path.length + 1 := weight_splitOn path
  rw [← hparts]
  exact weight_sublist List.filter_sublist

/-- To resolve components makes nothing longer. -/
theorem weight_resolveAll (stack cs : List (List α)) :
    weight (resolveAll dot stack cs) ≤ weight stack + weight cs := by
  induction cs generalizing stack with
  | nil => exact Nat.le_add_right _ _
  | cons c cs ih =>
    have hone : weight (resolve dot stack c) ≤ weight stack + (c.length + 1) := by
      rw [resolve]
      split
      · omega
      · split
        · exact Nat.le_trans (weight_sublist (List.dropLast_sublist stack)) (Nat.le_add_right _ _)
        · rw [weight_append]
          simp [weight]
    calc weight (resolveAll dot stack (c :: cs)) ≤ weight (resolve dot stack c) + weight cs := ih _
      _ ≤ weight stack + (c.length + 1) + weight cs := Nat.add_le_add_right hone _
      _ = weight stack + weight (c :: cs) := by
        simp only [weight, List.map_cons, List.sum_cons]
        omega

omit [DecidableEq α] in
theorem length_render (cs : List (List α)) : (render sep cs).length = max 1 (weight cs) := by
  cases cs with
  | nil => rfl
  | cons c cs =>
    have hflat : ∀ l : List (List α), (l.flatMap (sep :: ·)).length = weight l := by
      intro l
      induction l with
      | nil => rfl
      | cons c l ih =>
        rw [List.flatMap_cons, List.length_append, ih, List.length_cons, weight, weight,
          List.map_cons, List.sum_cons]
    rw [render, List.isEmpty_cons, if_neg Bool.false_ne_true, hflat]
    simp only [weight, List.map_cons, List.sum_cons]
    omega

end Lengths

/-! ## Bounded stacks -/

section Within

variable {dot} {n : ℕ} {cs stack : List (List α)} {c : List α}

theorem resolveWithin_eq_or (n : ℕ) (stack : List (List α)) (c : List α) :
    resolveWithin dot n stack c = resolve dot stack c ∨ resolveWithin dot n stack c = stack := by
  rw [resolveWithin, resolve]
  split
  · exact .inl rfl
  · split
    · exact .inl rfl
    · split
      · exact .inl rfl
      · exact .inr rfl

/-- What stands on a bounded stack is what some of the components resolve to. -/
theorem resolveAllWithin_sublist (n : ℕ) (stack cs : List (List α)) :
    ∃ cs', cs'.Sublist cs ∧ resolveAllWithin dot n stack cs = resolveAll dot stack cs' := by
  induction cs generalizing stack with
  | nil => exact ⟨[], List.Sublist.refl _, rfl⟩
  | cons c cs ih =>
    obtain ⟨cs', hsub, heq⟩ := ih (resolveWithin dot n stack c)
    have hone : resolveWithin dot n stack c = resolve dot stack c ∨
        resolveWithin dot n stack c = stack := resolveWithin_eq_or n stack c
    rcases hone with hc | hc
    · refine ⟨c :: cs', hsub.cons_cons c, ?_⟩
      rw [hc] at heq
      rw [resolveAllWithin, List.foldl_cons, ← resolveAllWithin, hc, heq]
      rfl
    · refine ⟨cs', hsub.cons c, ?_⟩
      rw [hc] at heq
      rw [resolveAllWithin, List.foldl_cons, ← resolveAllWithin, hc, heq]

/-- **A stack that never has to hold more than it can is as good as one without a bound.** -/
theorem resolveAllWithin_eq (h : ∀ k, (resolveAll dot stack (cs.take k)).length ≤ n) :
    resolveAllWithin dot n stack cs = resolveAll dot stack cs := by
  induction cs generalizing stack with
  | nil => rfl
  | cons c cs ih =>
    have hone : resolveWithin dot n stack c = resolve dot stack c := by
      have hle := h 1
      rw [List.take_succ_cons, List.take_zero, resolveAll, List.foldl_cons, List.foldl_nil] at hle
      rw [resolveWithin, resolve]
      rw [resolve] at hle
      split_ifs at hle ⊢ with hdot hdotdot hroom
      · rfl
      · rfl
      · rfl
      · rw [List.length_append, List.length_singleton] at hle
        omega
    rw [resolveAllWithin, List.foldl_cons, ← resolveAllWithin, hone]
    exact ih fun k => h (k + 1)

theorem length_resolveAllWithin (h : stack.length ≤ n) (cs : List (List α)) :
    (resolveAllWithin dot n stack cs).length ≤ n := by
  induction cs generalizing stack with
  | nil => exact h
  | cons c cs ih =>
    refine ih ?_
    rw [resolveWithin]
    split_ifs with hdot hdotdot hroom
    · exact h
    · rw [List.length_dropLast]
      omega
    · rw [List.length_append, List.length_singleton]
      omega
    · exact h

end Within

/-! ## Normal forms -/

section Normal

variable {sep dot} {cs stack : List (List α)} {c path : List α}

/-- No more components stand than there were. -/
theorem length_resolveAll (stack cs : List (List α)) :
    (resolveAll dot stack cs).length ≤ stack.length + cs.length := by
  induction cs generalizing stack with
  | nil => exact Nat.le_refl _
  | cons c cs ih =>
    have hone : (resolve dot stack c).length ≤ stack.length + 1 := by
      rw [resolve]
      split_ifs
      · exact Nat.le_succ _
      · exact Nat.le_succ_of_le (List.dropLast_sublist stack).length_le
      · rw [List.length_append, List.length_singleton]
    have hrest := ih (resolve dot stack c)
    rw [resolveAll, List.foldl_cons, ← resolveAll, List.length_cons]
    omega

/-- What holds of the components that stand, and of every other one but `.` and `..`, holds of those
that stand in the end. -/
theorem forall_resolveAll {P : List α → Prop} (hstack : ∀ c ∈ stack, P c)
    (hcs : ∀ c ∈ cs, c ≠ [dot] → c ≠ [dot, dot] → P c) : ∀ c ∈ resolveAll dot stack cs, P c := by
  induction cs generalizing stack with
  | nil => exact hstack
  | cons c cs ih =>
    refine @ih (resolve dot stack c) ?_ fun c' hc' => hcs c' (List.mem_cons_of_mem c hc')
    intro c' hc'
    rw [resolve] at hc'
    split_ifs at hc' with hdot hdotdot
    · exact hstack c' hc'
    · exact hstack c' ((List.dropLast_sublist stack).subset hc')
    · rcases List.mem_append.mp hc' with hc' | hc'
      · exact hstack c' hc'
      · obtain rfl := List.mem_singleton.mp hc'
        exact hcs _ (List.mem_cons_self ..) hdot hdotdot

theorem plain_resolveAll (hcs : ∀ c ∈ cs, c ≠ [] ∧ sep ∉ c) :
    ∀ c ∈ resolveAll dot [] cs, Plain sep dot c :=
  forall_resolveAll (fun _ h => nomatch h) fun c hc hdot hdotdot =>
    ⟨(hcs c hc).1, (hcs c hc).2, hdot, hdotdot⟩

/-- Plain components stay. -/
theorem resolveAll_plain (stack : List (List α)) (h : ∀ c ∈ cs, Plain sep dot c) :
    resolveAll dot stack cs = stack ++ cs := by
  induction cs generalizing stack with
  | nil => rw [resolveAll, List.foldl_nil, List.append_nil]
  | cons c cs ih =>
    have hc := h c (List.mem_cons_self ..)
    rw [resolveAll, List.foldl_cons, resolve, if_neg hc.ne_dot, if_neg hc.ne_dotdot, ← resolveAll,
      ih _ fun c' hc' => h c' (List.mem_cons_of_mem c hc'), List.append_assoc,
      List.singleton_append]

theorem components_flatMap (h : ∀ c ∈ cs, Plain sep dot c) :
    components sep (cs.flatMap (sep :: ·)) = cs := by
  induction cs with
  | nil => exact components_nil
  | cons c cs ih =>
    have hc := h c (List.mem_cons_self ..)
    have hrest := ih fun c' hc' => h c' (List.mem_cons_of_mem c hc')
    rw [List.flatMap_cons, List.cons_append, components_sep_cons]
    cases cs with
    | nil =>
      rw [List.flatMap_nil, List.append_nil]
      exact components_name hc.ne_nil hc.sep_notMem
    | cons c' cs =>
      rw [List.flatMap_cons, List.cons_append, components_sep_cons] at hrest
      rw [List.flatMap_cons, List.cons_append, components_name_cons hc.ne_nil hc.sep_notMem, hrest]

/-- **A path has the components it was made of.** -/
theorem components_render (h : ∀ c ∈ cs, Plain sep dot c) : components sep (render sep cs) = cs := by
  cases cs with
  | nil => exact components_sep_cons []
  | cons c cs => exact components_flatMap h

omit [DecidableEq α] in
theorem mem_render {x : α} (h : x ∈ render sep cs) : x = sep ∨ ∃ c ∈ cs, x ∈ c := by
  rw [render] at h
  split at h
  · exact .inl (List.mem_singleton.mp h)
  · obtain ⟨c, hc, hx⟩ := List.mem_flatMap.mp h
    rcases List.mem_cons.mp hx with hx | hx
    · exact .inl hx
    · exact .inr ⟨c, hc, hx⟩

omit [DecidableEq α] in
theorem head_render (cs : List (List α)) : (render sep cs).head? = some sep := by
  cases cs with
  | nil => rfl
  | cons c cs => rfl

theorem splitOn_flatMap_tail (h : ∀ c ∈ cs, Plain sep dot c) (hne : cs ≠ []) :
    (cs.flatMap (sep :: ·)).tail.splitOn sep = cs := by
  induction cs with
  | nil => exact absurd rfl hne
  | cons c cs ih =>
    have hc := h c (List.mem_cons_self ..)
    rw [List.flatMap_cons, List.cons_append, List.tail_cons]
    cases cs with
    | nil =>
      rw [List.flatMap_nil, List.append_nil]
      exact List.splitOn_eq_singleton hc.sep_notMem
    | cons c' cs =>
      have hrest := ih (fun c' hc' => h c' (List.mem_cons_of_mem c hc')) (List.cons_ne_nil _ _)
      rw [List.flatMap_cons, List.cons_append, List.tail_cons] at hrest
      rw [List.flatMap_cons, List.cons_append,
        List.splitOn_append_cons_self_of_not_mem hc.sep_notMem, hrest]

/-- **A path made of plain components is canonical.** -/
theorem isCanonical_render (h : ∀ c ∈ cs, Plain sep dot c) : IsCanonical sep dot (render sep cs) := by
  refine ⟨head_render cs, fun hne => ?_⟩
  cases cs with
  | nil => exact absurd rfl hne
  | cons c cs =>
    intro c' hc'
    rw [show render sep (c :: cs) = (c :: cs).flatMap (sep :: ·) from rfl,
      splitOn_flatMap_tail h (List.cons_ne_nil _ _)] at hc'
    exact h c' hc'

end Normal

end QuackOS.Paths
