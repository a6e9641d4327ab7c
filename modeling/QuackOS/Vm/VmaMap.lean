import QuackOS.Vm.VmaInvariant

/-!
# The table as a map

A table is read as a partial map: an address of an area has the area's permissions, type and
copy-on-write flag, and the area's offset plus its distance from the start of the area.

* `Maps` — the map, and `find_maps`: a lookup reads it;
* `InsertLaw`, `RemoveLaw`, `SplitLaw` — what each call has to do to the map;
* `edits_iff` — **exactly when they do**: no area is merged, and no area keeps its offset when its
  start moves up;
* `split_loses_offset` — an area in two halves with the same offset.
-/

namespace QuackOS.Vm

open VmaManager

/-- What stands behind an address. -/
structure Backing where
  perms : VmPerms
  regionType : VmRegionType
  cow : Bool
  offset : ℕ
  deriving DecidableEq, Repr

/-- What stands behind an address of the area. -/
def VmaEntry.backing (x : VmaEntry) (vaddr : ℕ) : Backing :=
  ⟨x.perms, x.regionType, x.cow, x.backingOffset + (vaddr - x.startVaddr)⟩

/-- The map the table stands for. -/
def Maps (m : VmaManager) (vaddr : ℕ) (v : Backing) : Prop :=
  ∃ x, m.Has x ∧ x.contains vaddr = true ∧ v = x.backing vaddr

/-! ## What the calls have to do -/

/-- An insertion that succeeds adds the addresses of the area, which were not there. -/
def InsertLaw (m : VmaManager) (e : VmaEntry) : Prop :=
  ∃ m' r, m.insert e = some (m', r) ∧ (r = .ok () →
    (∀ vaddr v, e.contains vaddr = true → ¬ Maps m vaddr v) ∧
    ∀ vaddr v, Maps m' vaddr v ↔ Maps m vaddr v ∨ (e.contains vaddr = true ∧ v = e.backing vaddr))

/-- A removal that succeeds takes the addresses of the range, and no other. -/
def RemoveLaw (m : VmaManager) (start stop : ℕ) : Prop :=
  ∃ m' r, m.remove start stop = some (m', r) ∧ (r = .ok () →
    ∀ vaddr v, Maps m' vaddr v ↔ Maps m vaddr v ∧ ¬ (start ≤ vaddr ∧ vaddr < stop))

/-- A split that succeeds changes nothing. -/
def SplitLaw (m : VmaManager) (vaddr : ℕ) : Prop :=
  ∃ m' r, m.splitAt vaddr = some (m', r) ∧ (∀ i, r = .ok i → ∀ a v, Maps m' a v ↔ Maps m a v)

/-! ## When they do -/

/-- An insertion that does not merge: an area in front that the new one joins is hidden by one that
starts where the new one does, and one behind that it joins is out of reach for an overlap. -/
def MergesNothing (m : VmaManager) (e : VmaEntry) : Prop :=
  e.startVaddr < e.endVaddr → m.len < maxVmaEntries →
    (∀ p, m.Has p → p.Joins e → ∃ x, m.Has x ∧ x.startVaddr = e.startVaddr) ∧
    ∀ n, m.Has n → e.Joins n → ∃ x, m.Has x ∧ x.startVaddr < e.endVaddr ∧ e.startVaddr < x.endVaddr

/-- A removal that leaves no area a later start: an area that reaches over the end of the range
reaches over both ends, in a full table. -/
def CutsNoFront (m : VmaManager) (start stop : ℕ) : Prop :=
  ∀ x, m.Has x → x.startVaddr < stop → stop < x.endVaddr →
    x.startVaddr < start ∧ m.len = maxVmaEntries

/-- A split at the start of an area or outside of all areas, or in a full table. -/
def SplitsNothing (m : VmaManager) (vaddr : ℕ) : Prop :=
  m.len < maxVmaEntries → ∀ x, m.Has x → ¬ (x.startVaddr < vaddr ∧ vaddr < x.endVaddr)

section Maps

variable {m m' : VmaManager} {A B L : List VmaEntry} {e x y : VmaEntry} {vaddr start stop : ℕ}
  {v : Backing}

theorem VmaManager.Rep.maps_iff (h : Rep m L) :
    Maps m vaddr v ↔ ∃ x ∈ L, x.contains vaddr = true ∧ v = x.backing vaddr := by
  simp only [Maps, h.has_iff]

/-- The map has one value at an address, and a lookup reads it. -/
theorem find_maps (h : TableOk m) (vaddr : ℕ) : ∃ r, m.find vaddr = some r ∧
    ∀ v, r.map (VmaEntry.backing · vaddr) = some v ↔ Maps m vaddr v := by
  obtain ⟨L, hrep, hord⟩ := h.holds
  rcases hrep.find_spec hord vaddr with ⟨hfind, -, hall⟩ | ⟨A, e, B, rfl, hfind, -, hc⟩
  · refine ⟨none, hfind, fun v => ⟨(fun h => nomatch h), ?_⟩⟩
    rw [hrep.maps_iff]
    rintro ⟨x, hx, hcx, -⟩
    rw [hall x hx] at hcx
    cases hcx
  · refine ⟨some e, hfind, fun v => ?_⟩
    rw [hrep.maps_iff, Option.map_some, Option.some_inj]
    constructor
    · intro hv
      exact ⟨e, by simp, hc, hv.symm⟩
    · rintro ⟨x, hx, hcx, rfl⟩
      rw [hord.unique hx (by simp) hcx hc]

/-! ### Insertion -/

/-- An area more. -/
theorem maps_added (h : Rep m (A ++ B)) (h' : Rep m' (A ++ e :: B)) :
    Maps m' vaddr v ↔ Maps m vaddr v ∨ (e.contains vaddr = true ∧ v = e.backing vaddr) := by
  rw [h.maps_iff, h'.maps_iff]
  constructor
  · rintro ⟨x, hx, hcx⟩
    rcases List.mem_append.mp hx with hx | hx
    · exact Or.inl ⟨x, List.mem_append_left B hx, hcx⟩
    · rcases List.mem_cons.mp hx with rfl | hx
      · exact Or.inr hcx
      · exact Or.inl ⟨x, List.mem_append_right A hx, hcx⟩
  · rintro (⟨x, hx, hcx⟩ | hce)
    · refine ⟨x, ?_, hcx⟩
      rcases List.mem_append.mp hx with hx | hx
      · exact List.mem_append_left _ hx
      · exact List.mem_append_right A (List.mem_cons_of_mem e hx)
    · exact ⟨e, by simp, hce⟩

theorem VmaEntry.Joins.offset_eq (h : x.Joins y) : x.backingOffset = y.backingOffset := by
  have := h.2
  simp only [VmaEntry.canMerge, Bool.and_eq_true, decide_eq_true_eq] at this
  exact this.2

/-- An area that is merged with the one in front of it takes over that one's distances. -/
theorem intoPrev_breaks (h' : Rep m' (A ++ { x with endVaddr := e.endVaddr } :: B))
    (hx : x.startVaddr < x.endVaddr) (he : e.startVaddr < e.endVaddr) (hjoin : x.Joins e) :
    ¬ ((∀ vaddr v, e.contains vaddr = true → ¬ Maps m vaddr v) ∧
      ∀ vaddr v, Maps m' vaddr v ↔
        Maps m vaddr v ∨ (e.contains vaddr = true ∧ v = e.backing vaddr)) := by
  rintro ⟨hfresh, hadds⟩
  have hend := hjoin.1
  have hce : e.contains e.startVaddr = true := VmaEntry.contains_eq_true.mpr ⟨le_rfl, he⟩
  have hmaps : Maps m' e.startVaddr ({ x with endVaddr := e.endVaddr }.backing e.startVaddr) := by
    refine h'.maps_iff.mpr ⟨_, by simp, ?_, rfl⟩
    exact VmaEntry.contains_eq_true.mpr ⟨by simp only; omega, he⟩
  rcases (hadds _ _).mp hmaps with hold | ⟨-, hnew⟩
  · exact hfresh _ _ hce hold
  · have hoff := congrArg Backing.offset hnew
    simp only [VmaEntry.backing] at hoff
    have := hjoin.offset_eq
    omega

/-- An area that is merged with the one behind it moves that one's distances. -/
theorem intoNext_breaks (h : Rep m (A ++ x :: B)) (hord : Ordered (A ++ x :: B))
    (h' : Rep m' (A ++ { x with startVaddr := e.startVaddr } :: B)) (he : e.startVaddr < e.endVaddr)
    (hjoin : e.Joins x) :
    ¬ ∀ vaddr v, Maps m' vaddr v ↔
      Maps m vaddr v ∨ (e.contains vaddr = true ∧ v = e.backing vaddr) := by
  intro hadds
  obtain ⟨-, hx, hA, hB⟩ := ordered_middle.mp hord
  have hend := hjoin.1
  have hcx : x.contains x.startVaddr = true := VmaEntry.contains_eq_true.mpr ⟨le_rfl, hx⟩
  have hmaps : Maps m x.startVaddr (x.backing x.startVaddr) :=
    h.maps_iff.mpr ⟨x, by simp, hcx, rfl⟩
  obtain ⟨y, hy, hcy, hval⟩ := h'.maps_iff.mp ((hadds _ _).mpr (Or.inl hmaps))
  rw [VmaEntry.contains_eq_true] at hcy
  have hnew : y = { x with startVaddr := e.startVaddr } := by
    rcases List.mem_append.mp hy with hy | hy
    · have := hA y hy
      omega
    · rcases List.mem_cons.mp hy with rfl | hy
      · rfl
      · have := hB y hy
        omega
  subst hnew
  have hoff := congrArg Backing.offset hval
  simp only [VmaEntry.backing] at hoff
  omega

/-- What a call has to do is asked of its one run. -/
theorem exists_run_iff {α β : Type} {run : Option (α × β)} {P : α → β → Prop} {a : α} {b : β}
    (hrun : run = some (a, b)) : (∃ a' b', run = some (a', b') ∧ P a' b') ↔ P a b := by
  subst hrun
  constructor
  · rintro ⟨a', b', heq, hp⟩
    cases heq
    exact hp
  · exact fun hp => ⟨a, b, rfl, hp⟩

theorem insertLaw_iff (h : TableOk m) (e : VmaEntry) : InsertLaw m e ↔ MergesNothing m e := by
  obtain ⟨L, hrep, hord⟩ := h.holds
  obtain ⟨m', r, L', hrun, hrep', hends⟩ := hrep.insert_spec hord e
  have hlaw : InsertLaw m e ↔ (r = .ok () →
      (∀ vaddr v, e.contains vaddr = true → ¬ Maps m vaddr v) ∧ ∀ vaddr v, Maps m' vaddr v ↔
        Maps m vaddr v ∨ (e.contains vaddr = true ∧ v = e.backing vaddr)) := exists_run_iff hrun
  rw [hlaw]
  unfold MergesNothing
  rw [hrep.len_eq]
  simp only [hrep.has_iff]
  cases hends with
  | empty he =>
    refine iff_of_true (fun h => nomatch h) fun he' => ?_
    omega
  | full he hlen =>
    refine iff_of_true (fun h => nomatch h) fun _ hlen' => ?_
    omega
  | @overlap he hlen y hy hlo hhi hnot =>
    refine iff_of_true (fun h => nomatch h) fun _ _ => ⟨hnot, fun n _ _ => ?_⟩
    exact ⟨y, hy, hlo, hhi⟩
  | @intoPrev he hlen A B p hL hjoin hB =>
    subst hL
    obtain ⟨hrest, hp, hA, -⟩ := ordered_middle.mp hord
    refine iff_of_false (fun hlaw => intoPrev_breaks hrep' hp he hjoin (hlaw rfl)) ?_
    intro hcond
    obtain ⟨x, hx, hstart⟩ := (hcond he hlen).1 p (by simp) hjoin
    have hend := hjoin.1
    rcases List.mem_append.mp hx with hx | hx
    · have h1 := hA x hx
      have h2 := hrest.nonempty x (List.mem_append_left B hx)
      omega
    · rcases List.mem_cons.mp hx with rfl | hx
      · omega
      · have := hB x hx
        omega
  | @intoNext he hlen A B n hL hjoin hA =>
    subst hL
    obtain ⟨-, hn, -, hBn⟩ := ordered_middle.mp hord
    refine iff_of_false (fun hlaw => intoNext_breaks hrep hord hrep' he hjoin (hlaw rfl).2) ?_
    intro hcond
    obtain ⟨x, hx, hlo, hhi⟩ := (hcond he hlen).2 n (by simp) hjoin
    have hend := hjoin.1
    rcases List.mem_append.mp hx with hx | hx
    · have := hA x hx
      omega
    · rcases List.mem_cons.mp hx with rfl | hx
      · omega
      · have := hBn x hx
        omega
  | @added he hlen A B hL hA hB =>
    subst hL
    refine iff_of_true (fun _ => ⟨fun vaddr v hce hmaps => ?_, fun vaddr v => maps_added hrep hrep'⟩)
      fun _ _ => ⟨fun p hp hjoin => ?_, fun n hn hjoin => ?_⟩
    · obtain ⟨x, hx, hcx, -⟩ := hrep.maps_iff.mp hmaps
      rw [VmaEntry.contains_eq_true] at hce hcx
      rcases List.mem_append.mp hx with hx | hx
      · have := (hA x hx).1
        omega
      · have := (hB x hx).1
        omega
    · rcases List.mem_append.mp hp with hp | hp
      · exact absurd hjoin (hA p hp).2
      · have h1 := (hB p hp).1
        have h2 := hjoin.1
        have h3 := hord.nonempty p (List.mem_append_right A hp)
        omega
    · rcases List.mem_append.mp hn with hn | hn
      · have h1 := (hA n hn).1
        have h2 := hjoin.1
        have h3 := hord.nonempty n (List.mem_append_left B hn)
        omega
      · exact absurd hjoin (hB n hn).2

/-! ### Removal -/

/-- What is left behind the end of the range is the area with a later start. -/
theorem VmaEntry.mem_without_above (h : start < stop) (hlo : x.startVaddr < stop) {a : ℕ}
    (hcx : x.contains a = true) (ha : stop ≤ a) (hy : y ∈ x.without start stop)
    (hcy : y.contains a = true) : y = { x with startVaddr := stop } := by
  rw [VmaEntry.contains_eq_true] at hcx hcy
  rw [VmaEntry.without, if_neg (by omega)] at hy
  rcases List.mem_append.mp hy with hy | hy
  · split at hy
    · rw [List.mem_singleton.mp hy] at hcy
      simp only at hcy
      omega
    · cases hy
  · split at hy
    · exact List.mem_singleton.mp hy
    · cases hy

/-- An area that does not reach over the end of the range loses the range, and nothing else. -/
theorem VmaEntry.backing_without (hfront : ¬ (x.startVaddr < stop ∧ stop < x.endVaddr)) {a : ℕ} :
    (∃ y ∈ x.without start stop, y.contains a = true ∧ v = y.backing a) ↔
      (x.contains a = true ∧ v = x.backing a) ∧ ¬ (start ≤ a ∧ a < stop) := by
  unfold VmaEntry.without
  simp only [VmaEntry.contains_eq_true]
  split
  · rename_i hapart
    constructor
    · rintro ⟨y, hy, hcy, hv⟩
      rw [List.mem_singleton.mp hy] at hcy hv
      exact ⟨⟨hcy, hv⟩, by omega⟩
    · rintro ⟨⟨hcx, hv⟩, -⟩
      exact ⟨x, List.mem_singleton_self x, hcx, hv⟩
  · rename_i hmeet
    rw [if_neg (by omega : ¬ stop < x.endVaddr), List.append_nil]
    split
    · rename_i hlo
      constructor
      · rintro ⟨y, hy, hcy, hv⟩
        rw [List.mem_singleton.mp hy] at hcy hv
        simp only at hcy
        exact ⟨⟨by omega, hv⟩, by omega⟩
      · rintro ⟨⟨hcx, hv⟩, hout⟩
        exact ⟨_, List.mem_singleton_self _, ⟨hcx.1, by simp only; omega⟩, hv⟩
    · rename_i hlo
      constructor
      · rintro ⟨y, hy, -⟩
        cases hy
      · rintro ⟨⟨hcx, -⟩, hout⟩
        omega

theorem removeLaw_iff (h : TableOk m) (hlt : start < stop) :
    RemoveLaw m start stop ↔ CutsNoFront m start stop := by
  obtain ⟨L, hrep, hord⟩ := h.holds
  obtain ⟨m', r, L', hrun, hrep', hends⟩ := hrep.remove_spec hord start stop
  have hlaw : RemoveLaw m start stop ↔ (r = .ok () →
      ∀ vaddr v, Maps m' vaddr v ↔ Maps m vaddr v ∧ ¬ (start ≤ vaddr ∧ vaddr < stop)) :=
    exists_run_iff hrun
  rw [hlaw]
  unfold CutsNoFront
  rw [hrep.len_eq]
  simp only [hrep.has_iff]
  cases hends with
  | empty hle => omega
  | @noRoom _ hlen A B x hL hlo hhi =>
    refine iff_of_true (fun h => nomatch h) fun y hy hylo hyhi => ?_
    have hcx : x.contains stop = true := VmaEntry.contains_eq_true.mpr ⟨by omega, hhi⟩
    have hcy : y.contains stop = true :=
      VmaEntry.contains_eq_true.mpr ⟨Nat.le_of_lt hylo, hyhi⟩
    rw [hord.unique hy (by simp [hL]) hcy hcx]
    exact ⟨hlo, hlen⟩
  | cut _ hroom =>
    rw [imp_iff_right rfl]
    constructor
    · intro hlaw x hx hlo hhi
      -- the first address behind the range gets the offset of the front
      exfalso
      have hcx : x.contains stop = true := VmaEntry.contains_eq_true.mpr ⟨Nat.le_of_lt hlo, hhi⟩
      have hmaps : Maps m stop (x.backing stop) := hrep.maps_iff.mpr ⟨x, hx, hcx, rfl⟩
      obtain ⟨y, hy, hcy, hval⟩ :=
        hrep'.maps_iff.mp ((hlaw stop _).mpr ⟨hmaps, fun hin => absurd hin.2 (lt_irrefl stop)⟩)
      obtain ⟨z, hz, hyz⟩ := List.mem_flatMap.mp hy
      have hin := VmaEntry.mem_without (hord.nonempty z hz) hyz
      have hcz : z.contains stop = true := by
        rw [VmaEntry.contains_eq_true] at hcy ⊢
        omega
      obtain rfl := hord.unique hz hx hcz hcx
      rw [VmaEntry.mem_without_above hlt hlo hcx le_rfl hyz hcy] at hval
      have hoff := congrArg Backing.offset hval
      simp only [VmaEntry.backing] at hoff
      omega
    · intro hcond vaddr v
      have hfront : ∀ x ∈ L, ¬ (x.startVaddr < stop ∧ stop < x.endVaddr) := by
        rintro x hx ⟨hlo, hhi⟩
        obtain ⟨hstart, hfull⟩ := hcond x hx hlo hhi
        have := hroom x hx hstart hhi
        omega
      rw [hrep.maps_iff, hrep'.maps_iff]
      constructor
      · rintro ⟨y, hy, hval⟩
        obtain ⟨x, hx, hyx⟩ := List.mem_flatMap.mp hy
        obtain ⟨hx', hout⟩ := (VmaEntry.backing_without (hfront x hx)).mp ⟨y, hyx, hval⟩
        exact ⟨⟨x, hx, hx'⟩, hout⟩
      · rintro ⟨⟨x, hx, hx'⟩, hout⟩
        obtain ⟨y, hyx, hval⟩ := (VmaEntry.backing_without (hfront x hx)).mpr ⟨hx', hout⟩
        exact ⟨y, List.mem_flatMap.mpr ⟨x, hx, hyx⟩, hval⟩

/-! ### Splitting -/

theorem splitLaw_iff (h : TableOk m) (vaddr : ℕ) : SplitLaw m vaddr ↔ SplitsNothing m vaddr := by
  obtain ⟨L, hrep, hord⟩ := h.holds
  obtain ⟨m', r, L', hrun, hrep', hends⟩ := hrep.splitAt_spec hord vaddr
  have hlaw : SplitLaw m vaddr ↔ ∀ i, r = .ok i → ∀ a v, Maps m' a v ↔ Maps m a v :=
    exists_run_iff hrun
  rw [hlaw]
  unfold SplitsNothing
  rw [hrep.len_eq]
  simp only [hrep.has_iff]
  cases hends with
  | outside hall =>
    refine iff_of_true (fun _ h => nomatch h) fun _ x hx hin => ?_
    have := VmaEntry.contains_eq_false.mp (hall x hx)
    omega
  | @boundary A B x hL hlo hhi =>
    refine iff_of_true (fun _ _ a v => by rw [hrep.unique hrep']) fun _ y hy hin => ?_
    have hcx : x.contains vaddr = true := VmaEntry.contains_eq_true.mpr ⟨by omega, hhi⟩
    have hcy : y.contains vaddr = true :=
      VmaEntry.contains_eq_true.mpr ⟨Nat.le_of_lt hin.1, hin.2⟩
    rw [hord.unique hy (by simp [hL]) hcy hcx] at hin
    omega
  | full hlen =>
    refine iff_of_true (fun _ h => nomatch h) fun hlen' => ?_
    omega
  | @split hlen A B x hL hlo hhi =>
    subst hL
    refine iff_of_false (fun hlaw => ?_) fun hcond => hcond hlen x (by simp) ⟨hlo, hhi⟩
    -- the start of the second half has the offset of the first
    have hcx : x.contains vaddr = true := VmaEntry.contains_eq_true.mpr ⟨Nat.le_of_lt hlo, hhi⟩
    have hnew : Maps m' vaddr ({ x with startVaddr := vaddr }.backing vaddr) := by
      refine hrep'.maps_iff.mpr ⟨_, by simp, ?_, rfl⟩
      exact VmaEntry.contains_eq_true.mpr ⟨le_rfl, hhi⟩
    obtain ⟨y, hy, hcy, hval⟩ := hrep.maps_iff.mp ((hlaw _ rfl vaddr _).mp hnew)
    rw [hord.unique hy (by simp) hcy hcx] at hval
    have hoff := congrArg Backing.offset hval
    simp only [VmaEntry.backing] at hoff
    omega

end Maps

/-! ## The map through the calls -/

/-- **When the calls do what they have to**, from any table that keeps its invariant: an insertion
that merges nothing, a removal that moves no start up, a split that splits nothing. -/
theorem edits_iff {m : VmaManager} (h : TableOk m) :
    (∀ e, InsertLaw m e ↔ MergesNothing m e) ∧
      (∀ start stop, start < stop → (RemoveLaw m start stop ↔ CutsNoFront m start stop)) ∧
      ∀ vaddr, SplitLaw m vaddr ↔ SplitsNothing m vaddr :=
  ⟨insertLaw_iff h, fun _ _ hlt => removeLaw_iff h hlt, splitLaw_iff h⟩

/-- A table with one area. -/
def oneArea (e : VmaEntry) : VmaManager := ⟨fun i => [e][i]?, 1⟩

theorem rep_oneArea (e : VmaEntry) : Rep (oneArea e) [e] := ⟨rfl, fun _ => rfl, Nat.le_add_left 1 63⟩

theorem has_oneArea {e x : VmaEntry} : (oneArea e).Has x ↔ x = e := by
  rw [(rep_oneArea e).has_iff, List.mem_singleton]

theorem tableOk_oneArea {e : VmaEntry} (he : e.startVaddr < e.endVaddr) : TableOk (oneArea e) := by
  refine Holds.tableOk ⟨[e], rep_oneArea e, fun x hx => ?_, List.pairwise_singleton _ _⟩
  rwa [List.mem_singleton.mp hx]

/-- The back of an area is removed. -/
theorem edits_iff_back : RemoveLaw (oneArea (dataArea 0x1000 0x3000)) 0x2000 0x3000 := by
  refine ((edits_iff (tableOk_oneArea (by decide))).2.1 0x2000 0x3000 (by decide)).mpr ?_
  intro x hx _ hhi
  obtain rfl := has_oneArea.mp hx
  exact absurd hhi (by decide)

/-- A code area of a file, from page 3 of the file on. -/
def codeArea (start stop : ℕ) : VmaEntry :=
  { startVaddr := start, endVaddr := stop, perms := ⟨true, false, true⟩, regionType := .code,
    backingOffset := 0x3000, cow := false }

/-- **An area of two pages is split, and both halves have the same offset**; the same happens when
its first page is removed, and a third page behind it is merged into it although it starts at the
same place of the file. -/
theorem split_loses_offset : TableOk (oneArea (codeArea 0x400000 0x402000)) ∧
    ¬ SplitLaw (oneArea (codeArea 0x400000 0x402000)) 0x401000 ∧
    ¬ RemoveLaw (oneArea (codeArea 0x400000 0x402000)) 0x400000 0x401000 ∧
    ¬ InsertLaw (oneArea (codeArea 0x400000 0x402000)) (codeArea 0x402000 0x403000) := by
  have hok : TableOk (oneArea (codeArea 0x400000 0x402000)) := tableOk_oneArea (by decide)
  refine ⟨hok, fun hlaw => ?_, fun hlaw => ?_, fun hlaw => ?_⟩
  · have hcond := (splitLaw_iff hok 0x401000).mp hlaw
    exact hcond (by decide) _ (has_oneArea.mpr rfl) (by decide)
  · have hcond := (removeLaw_iff hok (by decide)).mp hlaw
    have := hcond _ (has_oneArea.mpr rfl) (by decide) (by decide)
    exact absurd this.1 (by decide)
  · have hcond := (insertLaw_iff hok (codeArea 0x402000 0x403000)).mp hlaw
    have hjoins : (codeArea 0x400000 0x402000).Joins (codeArea 0x402000 0x403000) :=
      ⟨by decide, by decide⟩
    obtain ⟨x, hx, hstart⟩ := (hcond (by decide) (by decide)).1 _ (has_oneArea.mpr rfl) hjoins
    rw [has_oneArea.mp hx] at hstart
    exact absurd hstart (by decide)

end QuackOS.Vm
