import QuackOS.Elf.Pages

/-!
# What a load comes to when no sum overflows

* `plan`, `tlsPlan`, `brkArea`, `ElfFile.pages` — what the phases collect and the pages they map;
* `Sums` — no sum of `load_elf_bytes` leaves `usize`;
* `collect_of_fits`, `copySegmentData_isSome`, ... — each function panics just when one of its sums
  does not fit;
* `copySegmentData_spec`, `zeroBss_spec`, `fillSegment_spec` — the bytes of a page after it is filled.
-/

namespace QuackOS.Elf

open Mm

/-! ## Arithmetic -/

section Arithmetic

variable {a b start stop va : ℕ}

theorem add_of_lt (h : a + b < 2 ^ 64) : add a b = some (a + b) := if_pos h

theorem add_of_not_lt (h : ¬ a + b < 2 ^ 64) : add a b = none := if_neg h

theorem add_eq_some {c : ℕ} (h : add a b = some c) : c = a + b := by
  by_cases hlt : a + b < 2 ^ 64
  · rw [add_of_lt hlt] at h
    exact (Option.some.inj h).symm
  · rw [add_of_not_lt hlt] at h
    cases h

/-- `v`, rounded up to a page. -/
def roundUp (v : ℕ) : ℕ := pageAlignDown (v + 4095)

theorem pageAlignUp_of_lt (h : a + 4096 < 2 ^ 64) : pageAlignUp a = some (roundUp a) := by
  rw [pageAlignUp, add_of_lt h]
  rfl

theorem pageAlignUp_of_not_lt (h : ¬ a + 4096 < 2 ^ 64) : pageAlignUp a = none := by
  rw [pageAlignUp, add_of_not_lt h]
  rfl

theorem pageAlignUp_eq_some {c : ℕ} (h : pageAlignUp a = some c) : c = roundUp a := by
  by_cases hlt : a + 4096 < 2 ^ 64
  · rw [pageAlignUp_of_lt hlt] at h
    exact (Option.some.inj h).symm
  · rw [pageAlignUp_of_not_lt hlt] at h
    cases h

theorem pageAlignDown_mod (v : ℕ) : pageAlignDown v % 4096 = 0 := by
  unfold pageAlignDown
  omega

theorem roundUp_mod (v : ℕ) : roundUp v % 4096 = 0 := pageAlignDown_mod _

theorem le_roundUp (v : ℕ) : v ≤ roundUp v := by
  unfold roundUp pageAlignDown
  omega

theorem roundUp_lt (v : ℕ) : roundUp v < v + 4096 := by
  unfold roundUp pageAlignDown
  omega

theorem roundUp_mono (h : a ≤ b) : roundUp a ≤ roundUp b := by
  unfold roundUp pageAlignDown
  omega

theorem pageAlignDown_of_mod (h : a % 4096 = 0) : pageAlignDown a = a := by
  rw [pageAlignDown, h, Nat.sub_zero]

theorem mem_pagesBetween : va ∈ pagesBetween start stop ↔ ∃ i, va = start + 4096 * i ∧ va < stop := by
  rw [pagesBetween, List.mem_map]
  constructor
  · rintro ⟨i, hi, rfl⟩
    have := List.mem_range.mp hi
    exact ⟨i, rfl, by omega⟩
  · rintro ⟨i, rfl, hlt⟩
    exact ⟨i, List.mem_range.mpr (by omega), rfl⟩

/-- The pages between two page borders. -/
theorem mem_pagesBetween_iff (hstart : start % 4096 = 0) :
    va ∈ pagesBetween start stop ↔ va % 4096 = 0 ∧ start ≤ va ∧ va < stop := by
  rw [mem_pagesBetween]
  constructor
  · rintro ⟨i, rfl, hlt⟩
    omega
  · rintro ⟨hmod, hle, hlt⟩
    exact ⟨(va - start) / 4096, by omega, hlt⟩

theorem pagesBetween_ne_nil (h : start < stop) : pagesBetween start stop ≠ [] :=
  List.ne_nil_of_mem (mem_pagesBetween.mpr ⟨0, rfl, h⟩)

end Arithmetic

/-! ## Phase 1 -/

/-- The end of a segment in memory. -/
def ProgramHeader.vend (h : ProgramHeader) : ℕ := h.virtualAddr.toNat + h.memSize.toNat

/-- The segment of a program header. -/
def segmentOf (h : ProgramHeader) : Segment where
  start := pageAlignDown h.virtualAddr.toNat
  stop := roundUp h.vend
  filesz := h.fileSize.toNat
  offset := h.offset.toNat
  vaddr := h.virtualAddr.toNat
  mapf := elfFlagsToMapf h

/-- What `collectHeader` comes to. -/
def planHeader (c : Collected) (h : ProgramHeader) : Collected :=
  match h.type with
  | .tls => { c with tlsMemsz := h.memSize.toNat }
  | .other => c
  | .load => {
      segs := if c.segs.length < maxSegments then c.segs ++ [segmentOf h] else c.segs
      dataEnd := max c.dataEnd h.vend
      tlsMemsz := c.tlsMemsz }

/-- What phase 1 collects. -/
def plan (headers : List ProgramHeader) : Collected :=
  headers.foldl planHeader { segs := [], dataEnd := 0, tlsMemsz := 0 }

/-- The end of a segment can be rounded up. -/
def ProgramHeader.Fits (h : ProgramHeader) : Prop := h.type = .load → h.vend + 4096 < 2 ^ 64

instance (h : ProgramHeader) : Decidable h.Fits := inferInstanceAs (Decidable (_ → _))

section Collect

variable {c : Collected} {h : ProgramHeader} {headers : List ProgramHeader}

theorem collectHeader_of_fits (hfit : h.Fits) : collectHeader c h = some (planHeader c h) := by
  unfold collectHeader planHeader
  cases ht : h.type with
  | tls => rfl
  | other => rfl
  | load =>
    have hlt : h.virtualAddr.toNat + h.memSize.toNat + 4096 < 2 ^ 64 := hfit ht
    have hmax : (if h.virtualAddr.toNat + h.memSize.toNat > c.dataEnd then
        h.virtualAddr.toNat + h.memSize.toNat else c.dataEnd) = max c.dataEnd h.vend := by
      show (if h.vend > c.dataEnd then h.vend else c.dataEnd) = max c.dataEnd h.vend
      split <;> omega
    dsimp only
    rw [add_of_lt (by omega), Option.bind_eq_bind, Option.bind_some, pageAlignUp_of_lt hlt,
      Option.bind_some, hmax]
    rfl

theorem collectHeader_of_not_fits (hfit : ¬ h.Fits) : collectHeader c h = none := by
  obtain ⟨ht, hlt⟩ := Classical.not_imp.mp hfit
  change ¬ h.virtualAddr.toNat + h.memSize.toNat + 4096 < 2 ^ 64 at hlt
  unfold collectHeader
  rw [ht]
  dsimp only
  by_cases hsum : h.virtualAddr.toNat + h.memSize.toNat < 2 ^ 64
  · rw [add_of_lt hsum, Option.bind_eq_bind, Option.bind_some, pageAlignUp_of_not_lt hlt]
    rfl
  · rw [add_of_not_lt hsum]
    rfl

/-- **Phase 1 panics just when a segment's end cannot be rounded up.** -/
theorem collect_of_fits (hfit : ∀ h ∈ headers, h.Fits) : collect headers = some (plan headers) := by
  unfold collect plan
  generalize (⟨[], 0, 0⟩ : Collected) = c
  induction headers generalizing c with
  | nil => rfl
  | cons h headers ih =>
    rw [List.foldlM_cons, collectHeader_of_fits (hfit h (List.mem_cons_self ..))]
    exact ih (fun x hx => hfit x (List.mem_cons_of_mem h hx)) _

theorem collect_of_not_fits (hfit : ¬ ∀ h ∈ headers, h.Fits) : collect headers = none := by
  unfold collect
  generalize (⟨[], 0, 0⟩ : Collected) = c
  induction headers generalizing c with
  | nil => exact absurd (fun x hx => absurd hx List.not_mem_nil) hfit
  | cons h headers ih =>
    rw [List.foldlM_cons]
    by_cases hh : h.Fits
    · rw [collectHeader_of_fits hh]
      refine ih (fun hall => hfit fun x hx => ?_) _
      rcases List.mem_cons.mp hx with rfl | hx
      · exact hh
      · exact hall x hx
    · rw [collectHeader_of_not_fits hh]
      rfl

/-- The segments of phase 1 are those of program headers, and end before `data_end`. -/
theorem mem_plan_segs {s : Segment} (hs : s ∈ (plan headers).segs) :
    (∃ h ∈ headers, h.type = .load ∧ s = segmentOf h) ∧ s.stop ≤ roundUp (plan headers).dataEnd := by
  have hgen : ∀ (hs : List ProgramHeader) (c : Collected), (∀ x ∈ hs, x ∈ headers) →
      (∀ s ∈ c.segs, (∃ h ∈ headers, h.type = .load ∧ s = segmentOf h) ∧ s.stop ≤ roundUp c.dataEnd) →
      ∀ s ∈ (hs.foldl planHeader c).segs, (∃ h ∈ headers, h.type = .load ∧ s = segmentOf h) ∧
        s.stop ≤ roundUp (hs.foldl planHeader c).dataEnd := by
    intro hs
    induction hs with
    | nil => exact fun c _ hc => hc
    | cons h hs ih =>
      intro c hsub hc
      refine ih _ (fun x hx => hsub x (List.mem_cons_of_mem h hx)) fun s hs => ?_
      have hmem : h ∈ headers := hsub h (List.mem_cons_self ..)
      unfold planHeader at hs ⊢
      cases ht : h.type with
      | tls =>
        rw [ht] at hs
        exact hc s hs
      | other =>
        rw [ht] at hs
        exact hc s hs
      | load =>
        rw [ht] at hs
        have hold : s ∈ c.segs → (∃ h ∈ headers, h.type = .load ∧ s = segmentOf h) ∧
            s.stop ≤ roundUp (max c.dataEnd h.vend) :=
          fun hs => ⟨(hc s hs).1, (hc s hs).2.trans (roundUp_mono (Nat.le_max_left ..))⟩
        dsimp only at hs ⊢
        split at hs
        · rcases List.mem_append.mp hs with hs | hs
          · exact hold hs
          · obtain rfl := List.mem_singleton.mp hs
            exact ⟨⟨h, hmem, ht, rfl⟩, roundUp_mono (Nat.le_max_right ..)⟩
        · exact hold hs
  exact hgen headers _ (fun x hx => hx) (fun s hs => absurd hs List.not_mem_nil) s hs

end Collect

/-! ## Phase 2 -/

theorem exchange_perm (s : Segment) (ts : List Segment) :
    ((exchange s ts).1 :: (exchange s ts).2).Perm (s :: ts) := by
  induction ts generalizing s with
  | nil => exact List.Perm.refl _
  | cons t ts ih =>
    rw [exchange]
    split
    · exact (List.Perm.swap ..).trans ((ih t).cons s)
    · exact (List.Perm.swap ..).trans (((ih s).cons t).trans (List.Perm.swap ..))

/-- Phase 2 rearranges the segments. -/
theorem sortSegments_perm (ss : List Segment) : (sortSegments ss).Perm ss := by
  induction ss using sortSegments.induct with
  | case1 =>
    rw [sortSegments]
  | case2 s ts ih =>
    rw [sortSegments]
    exact (ih.cons _).trans (exchange_perm s ts)

/-! ## Phase 3 -/

/-- The pages that phase 3 maps. -/
def segmentPages : List Segment → ℕ → List ℕ
  | [], _ => []
  | s :: ss, lastEnd => gapPages lastEnd s ++ pagesBetween s.start s.stop ++ segmentPages ss s.stop

/-- `last_end` after phase 3. -/
def lastStop : List Segment → ℕ → ℕ
  | [], lastEnd => lastEnd
  | s :: ss, _ => lastStop ss s.stop

theorem lastStop_le {ss : List Segment} {lastEnd n : ℕ} (hl : lastEnd ≤ n) (h : ∀ s ∈ ss, s.stop ≤ n) :
    lastStop ss lastEnd ≤ n := by
  induction ss generalizing lastEnd with
  | nil => exact hl
  | cons s ss ih => exact ih (h s (List.mem_cons_self ..)) fun t ht => h t (List.mem_cons_of_mem s ht)

/-- The copy of a segment into a page stays in `usize`. -/
def CopyFits (pageVa segVa filesz offset : ℕ) : Prop :=
  pageVa + 4096 < 2 ^ 64 ∧ segVa + filesz < 2 ^ 64 ∧
    (max pageVa segVa < min (pageVa + 4096) (segVa + filesz) →
      offset + (min (pageVa + 4096) (segVa + filesz) - segVa) < 2 ^ 64)

/-- The sums for the pages of a segment, if it has any: the end of its bytes in memory and the end of
those that are copied in the file. -/
def Segment.Fits (s : Segment) : Prop :=
  s.start < s.stop → s.vaddr + s.filesz < 2 ^ 64 ∧ s.offset + min s.filesz (s.stop - s.vaddr) < 2 ^ 64

instance (s : Segment) : Decidable s.Fits := inferInstanceAs (Decidable (_ → _))

section Fill

variable {f va segVa filesz offset dataEnd segEnd : ℕ} {elfBytes : List (BitVec 8)} {ph ph' : Phys}
  {s : Segment}

theorem copySegmentData_isSome : (copySegmentData f va segVa filesz offset elfBytes ph).isSome ↔
    CopyFits va segVa filesz offset := by
  unfold copySegmentData CopyFits
  by_cases hpage : va + 4096 < 2 ^ 64
  case neg =>
    rw [add_of_not_lt hpage]
    exact iff_of_false Bool.false_ne_true fun h => hpage h.1
  by_cases hseg : segVa + filesz < 2 ^ 64
  case neg =>
    rw [add_of_lt hpage, add_of_not_lt hseg]
    exact iff_of_false Bool.false_ne_true fun h => hseg h.2.1
  rw [add_of_lt hpage, add_of_lt hseg]
  simp only [Option.bind_eq_bind, Option.bind_some, ge_iff_le]
  split
  case isTrue hnone =>
    exact iff_of_true rfl ⟨hpage, hseg, fun h => absurd hnone (Nat.not_le.mpr h)⟩
  case isFalse hsome =>
    have hcopy : max va segVa < min (va + 4096) (segVa + filesz) := Nat.not_le.mp hsome
    -- the end of the bytes in the file
    have hend : offset + (max va segVa - segVa) + (min (va + 4096) (segVa + filesz) - max va segVa) =
        offset + (min (va + 4096) (segVa + filesz) - segVa) := by omega
    by_cases hfit : offset + (min (va + 4096) (segVa + filesz) - segVa) < 2 ^ 64
    · rw [add_of_lt (by omega), Option.bind_some, add_of_lt (by omega), Option.bind_some]
      refine iff_of_true ?_ ⟨hpage, hseg, fun _ => hfit⟩
      split <;> rfl
    · refine iff_of_false ?_ fun h => hfit (h.2.2 hcopy)
      by_cases hoff : offset + (max va segVa - segVa) < 2 ^ 64
      · rw [add_of_lt hoff, Option.bind_some, add_of_not_lt (by omega)]
        exact Bool.false_ne_true
      · rw [add_of_not_lt hoff]
        exact Bool.false_ne_true

theorem zeroBss_isSome : (zeroBss f va dataEnd segEnd ph).isSome ↔ va + 4096 < 2 ^ 64 := by
  unfold zeroBss
  by_cases hpage : va + 4096 < 2 ^ 64
  · rw [add_of_lt hpage]
    refine iff_of_true ?_ hpage
    simp only [Option.bind_eq_bind, Option.bind_some]
    split <;> rfl
  · rw [add_of_not_lt hpage]
    exact iff_of_false Bool.false_ne_true hpage

/-- **The bytes of a page after `copy_segment_data`.** -/
theorem copySegmentData_spec (h : copySegmentData f va segVa filesz offset elfBytes ph = some ph') :
    (∃ ws, ph' = ph.fill f ws) ∧ ∀ j < 4096, ph'.byte f j =
      if segVa ≤ va + j ∧ va + j < segVa + filesz ∧
          offset + (min (va + 4096) (segVa + filesz) - segVa) ≤ elfBytes.length then
        elfBytes.getD (offset + (va + j - segVa)) 0
      else ph.byte f j := by
  obtain ⟨hpage, hseg, hfit⟩ := copySegmentData_isSome.mp (Option.isSome_iff_exists.mpr ⟨_, h⟩)
  have hsame : ph' = ph → (∃ ws, ph' = ph.fill f ws) := by
    rintro rfl
    exact ⟨_, Phys.fill_self.symm⟩
  unfold copySegmentData at h
  rw [add_of_lt hpage, add_of_lt hseg] at h
  simp only [Option.bind_eq_bind, Option.bind_some, ge_iff_le] at h
  split at h
  case isTrue hnone =>
    obtain rfl := Option.some.inj h
    refine ⟨hsame rfl, fun j hj => (if_neg ?_).symm⟩
    omega
  case isFalse hsome =>
    have hcopy : max va segVa < min (va + 4096) (segVa + filesz) := Nat.not_le.mp hsome
    have hlt := hfit hcopy
    rw [add_of_lt (by omega), Option.bind_some, add_of_lt (by omega), Option.bind_some] at h
    split at h
    case isTrue hfile =>
      obtain rfl := Option.some.inj h
      refine ⟨⟨_, rfl⟩, fun j hj => ?_⟩
      rw [Phys.byte_store hj]
      by_cases hin : segVa ≤ va + j ∧ va + j < segVa + filesz
      · rw [if_pos (by omega), if_pos (by omega)]
        congr 1
        omega
      · rw [if_neg (by omega), if_neg (by omega)]
    case isFalse hfile =>
      obtain rfl := Option.some.inj h
      refine ⟨hsame rfl, fun j hj => (if_neg ?_).symm⟩
      omega

/-- The bytes of a page after `zero_bss`. -/
theorem zeroBss_spec (h : zeroBss f va dataEnd segEnd ph = some ph') :
    (∃ ws, ph' = ph.fill f ws) ∧ ∀ j < 4096, ph'.byte f j =
      if dataEnd ≤ va + j ∧ va + j < segEnd then 0 else ph.byte f j := by
  have hpage : va + 4096 < 2 ^ 64 := zeroBss_isSome.mp (Option.isSome_iff_exists.mpr ⟨_, h⟩)
  unfold zeroBss at h
  rw [add_of_lt hpage] at h
  simp only [Option.bind_eq_bind, Option.bind_some] at h
  split at h
  case isTrue hzero =>
    obtain rfl := Option.some.inj h
    refine ⟨⟨_, rfl⟩, fun j hj => ?_⟩
    rw [Phys.byte_store hj]
    refine if_congr ?_ rfl rfl
    omega
  case isFalse hnone =>
    obtain rfl := Option.some.inj h
    refine ⟨⟨_, Phys.fill_self.symm⟩, fun j hj => (if_neg ?_).symm⟩
    omega

theorem fillSegment_isSome : (fillSegment s elfBytes f va ph).isSome ↔
    CopyFits va s.vaddr s.filesz s.offset := by
  unfold fillSegment
  rw [← @copySegmentData_isSome f va s.vaddr s.filesz s.offset elfBytes ph]
  cases hc : copySegmentData f va s.vaddr s.filesz s.offset elfBytes ph with
  | none => exact Iff.rfl
  | some ph₁ =>
    obtain ⟨hpage, hseg, -⟩ := copySegmentData_isSome.mp (Option.isSome_iff_exists.mpr ⟨_, hc⟩)
    rw [Option.bind_eq_bind, Option.bind_some, add_of_lt hseg, Option.bind_eq_bind, Option.bind_some]
    exact iff_of_true (zeroBss_isSome.mpr hpage) rfl

/-- The bytes of a page of a segment. -/
theorem fillSegment_spec (h : fillSegment s elfBytes f va ph = some ph') :
    (∃ ws, ph' = ph.fill f ws) ∧ ∀ j < 4096, ph'.byte f j =
      if s.vaddr + s.filesz ≤ va + j ∧ va + j < s.stop then 0
      else if s.vaddr ≤ va + j ∧ va + j < s.vaddr + s.filesz ∧
          s.offset + (min (va + 4096) (s.vaddr + s.filesz) - s.vaddr) ≤ elfBytes.length then
        elfBytes.getD (s.offset + (va + j - s.vaddr)) 0
      else ph.byte f j := by
  unfold fillSegment at h
  obtain ⟨ph₁, hcopy, h⟩ := Option.bind_eq_some_iff.mp h
  obtain ⟨dataEnd, hadd, hzero⟩ := Option.bind_eq_some_iff.mp h
  have hseg : s.vaddr + s.filesz < 2 ^ 64 := (copySegmentData_isSome.mp (Option.isSome_iff_exists.mpr ⟨_, hcopy⟩)).2.1
  rw [add_of_lt hseg] at hadd
  obtain rfl := Option.some.inj hadd
  obtain ⟨⟨ws, rfl⟩, hbytes⟩ := copySegmentData_spec hcopy
  obtain ⟨⟨ws', rfl⟩, hbytes'⟩ := zeroBss_spec hzero
  refine ⟨⟨ws', Phys.fill_fill⟩, fun j hj => ?_⟩
  rw [hbytes' j hj, hbytes j hj]

/-- A segment whose borders are those of its pages. -/
structure Segment.Regular (s : Segment) : Prop where
  start_eq : s.start = pageAlignDown s.vaddr
  vaddr_le : s.vaddr ≤ s.stop
  stop_mod : s.stop % 4096 = 0
  stop_lt : s.stop < 2 ^ 64
  offset_lt : s.offset < 2 ^ 64

theorem regular_segmentOf {h : ProgramHeader} (ht : h.type = .load) (hfit : h.Fits) :
    (segmentOf h).Regular := by
  have hlt : h.vend + 4096 < 2 ^ 64 := hfit ht
  have hup := roundUp_lt h.vend
  refine ⟨rfl, ?_, roundUp_mod _, ?_, h.offset.isLt⟩
  · exact (Nat.le_add_right _ _).trans (le_roundUp h.vend)
  · show roundUp h.vend < 2 ^ 64
    omega

/-- The copies of all pages fit when that of the last bytes does. -/
theorem Segment.Regular.fits_iff (h : s.Regular) :
    (∀ va ∈ pagesBetween s.start s.stop, CopyFits va s.vaddr s.filesz s.offset) ↔ s.Fits := by
  obtain ⟨hstart, hle, hmod, hlt, hoff⟩ := h
  have hsm : s.start % 4096 = 0 := hstart ▸ pageAlignDown_mod _
  have hdown : s.vaddr < s.start + 4096 ∧ s.start ≤ s.vaddr := by
    rw [hstart, pageAlignDown]
    omega
  constructor
  · intro hall hne
    obtain ⟨-, hseg, -⟩ := hall s.start ((mem_pagesBetween_iff hsm).mpr ⟨hsm, Nat.le_refl _, hne⟩)
    refine ⟨hseg, ?_⟩
    by_cases hzero : min s.filesz (s.stop - s.vaddr) = 0
    · rw [hzero]
      exact hoff
    · -- the page of the last byte that is copied
      obtain ⟨x, hx⟩ : ∃ x, x = s.vaddr + min s.filesz (s.stop - s.vaddr) - 1 := ⟨_, rfl⟩
      have hpage : pageAlignDown x ∈ pagesBetween s.start s.stop := by
        refine (mem_pagesBetween_iff hsm).mpr ⟨pageAlignDown_mod x, ?_, ?_⟩ <;> unfold pageAlignDown <;>
          omega
      obtain ⟨-, -, hcopy⟩ := hall _ hpage
      have hbounds : pageAlignDown x ≤ x ∧ x < pageAlignDown x + 4096 := by
        unfold pageAlignDown
        omega
      have := hcopy (by omega)
      omega
  · intro hfit va hva
    obtain ⟨hvm, hlo, hhi⟩ := (mem_pagesBetween_iff hsm).mp hva
    obtain ⟨hseg, hend⟩ := hfit (by omega)
    refine ⟨by omega, hseg, fun _ => ?_⟩
    omega

end Fill

/-! ## Phase 3.5 -/

/-- The program header has an image that the loader takes. -/
def ProgramHeader.IsImage (h : ProgramHeader) : Prop :=
  h.type = .tls ∧ h.fileSize.toNat ≠ 0 ∧ h.memSize.toNat ≠ 0

instance (h : ProgramHeader) : Decidable h.IsImage :=
  inferInstanceAs (Decidable (_ ∧ _))

/-- The loader skips every other one. -/
theorem ProgramHeader.not_isImage {h : ProgramHeader} :
    ¬ h.IsImage ↔ h.type ≠ .tls ∨ h.fileSize.toNat = 0 ∨ h.memSize.toNat = 0 := by
  unfold ProgramHeader.IsImage
  tauto

/-- What `loadTlsHeader` makes of `data_end` and `tls_memsz`. -/
def tlsHeader (r : ℕ × ℕ) (h : ProgramHeader) : ℕ × ℕ :=
  if h.IsImage then
    (max r.1 (h.virtualAddr.toNat + h.fileSize.toNat), max r.2 h.memSize.toNat)
  else r

theorem tlsHeader_of_image {h : ProgramHeader} (himage : h.IsImage) (r : ℕ × ℕ) : tlsHeader r h =
    (if h.virtualAddr.toNat + h.fileSize.toNat > r.1 then h.virtualAddr.toNat + h.fileSize.toNat
      else r.1,
    if h.memSize.toNat > r.2 then h.memSize.toNat else r.2) := by
  rw [tlsHeader, if_pos himage, Prod.mk.injEq]
  constructor <;> split <;> omega

/-- The bytes of an image that are copied are in the file. -/
theorem tlsCopyLen_le {elfBytes : List (BitVec 8)} (h : ProgramHeader)
    (hne : tlsCopyLen elfBytes h ≠ 0) :
    h.offset.toNat + tlsCopyLen elfBytes h ≤ elfBytes.length := by
  unfold tlsCopyLen at hne ⊢
  omega

/-- What phase 3.5 makes of them. -/
def tlsPlan (headers : List ProgramHeader) (r : ℕ × ℕ) : ℕ × ℕ := headers.foldl tlsHeader r

theorem le_tlsPlan (headers : List ProgramHeader) (r : ℕ × ℕ) : r.1 ≤ (tlsPlan headers r).1 := by
  induction headers generalizing r with
  | nil => exact Nat.le_refl _
  | cons h headers ih =>
    refine Nat.le_trans ?_ (ih (tlsHeader r h))
    unfold tlsHeader
    split
    · exact Nat.le_max_left ..
    · exact Nat.le_refl _

/-- A page of the image is written on the frame that is shown for it. -/
theorem patchPage_eq (elfBytes : List (BitVec 8)) (vaddr copyLen offset va : ℕ) (l : Loader) :
    patchPage elfBytes vaddr copyLen offset va l =
      match shown l.pt l.ph (va >>> 12) with
      | none => some (.ok (), l)
      | some w =>
        (copySegmentData (Pte.ppn w) va vaddr copyLen offset elfBytes l.ph).map fun ph =>
          (.ok (), { l with ph }) := by
  rw [patchPage, shown, PageTable.translateVpnToPte]
  cases l.pt.findPte l.ph (va >>> 12) with
  | none => rfl
  | some r =>
    obtain ⟨n, i⟩ := r
    rw [Option.map_some, Option.filter_some]
    dsimp only
    split
    · dsimp only
      rw [Option.bind_eq_bind, Option.map_eq_bind]
      rfl
    · rfl

/-- The sums for a TLS image. -/
def ProgramHeader.ImageFits (elfBytes : List (BitVec 8)) (h : ProgramHeader) : Prop :=
  h.IsImage → h.virtualAddr.toNat + h.fileSize.toNat < 2 ^ 64 ∧
    (tlsCopyLen elfBytes h ≠ 0 →
      h.virtualAddr.toNat + tlsCopyLen elfBytes h + 4096 < 2 ^ 64)

instance (elfBytes : List (BitVec 8)) (h : ProgramHeader) : Decidable (h.ImageFits elfBytes) :=
  inferInstanceAs (Decidable (_ → _))

/-! ## Phase 4 -/

/-- What `brk_pages` comes to. -/
def brkCount (tlsMemsz : ℕ) : ℕ := if tlsMemsz > 0 then (0x200 + tlsMemsz + 4095) / 4096 else 4

theorem brkCount_pos (tlsMemsz : ℕ) : 0 < brkCount tlsMemsz := by
  unfold brkCount
  split <;> omega

theorem brkPages_of_lt {t : ℕ} (h : 0 < t → 0x200 + t + 4096 < 2 ^ 64) :
    brkPages t = some (brkCount t) := by
  unfold brkPages brkCount
  split
  case isTrue ht =>
    have hlt := h ht
    rw [add_of_lt (by omega), Option.bind_eq_bind, Option.bind_some, add_of_lt hlt, Option.bind_some]
    rfl
  case isFalse => rfl

theorem brkPages_of_not_lt {t : ℕ} (h : ¬ (0 < t → 0x200 + t + 4096 < 2 ^ 64)) : brkPages t = none := by
  obtain ⟨ht, hlt⟩ := Classical.not_imp.mp h
  unfold brkPages
  rw [if_pos ht]
  by_cases hsum : 0x200 + t < 2 ^ 64
  · rw [add_of_lt hsum, Option.bind_eq_bind, Option.bind_some, add_of_not_lt hlt]
    rfl
  · rw [add_of_not_lt hsum]
    rfl

/-- The pages that phase 4 maps. -/
def brkArea (dataEnd tlsMemsz : ℕ) : List ℕ :=
  pagesBetween (roundUp dataEnd) (roundUp dataEnd + brkCount tlsMemsz * 4096)

/-! ## The whole load -/

namespace ElfFile

/-- `data_end` and `tls_memsz` at the end of phase 3.5. -/
def ends (elf : ElfFile) : ℕ × ℕ :=
  tlsPlan elf.programIter ((plan elf.programIter).dataEnd, (plan elf.programIter).tlsMemsz)

/-- The loaded segments, in the order they are mapped in. -/
def segments (elf : ElfFile) : List Segment := sortSegments (plan elf.programIter).segs

/-- The pages that a load maps, in this order. -/
def pages (elf : ElfFile) : List ℕ := segmentPages elf.segments 0 ++ brkArea elf.ends.1 elf.ends.2

end ElfFile

/-- No sum of `load_elf_bytes` leaves `usize`. -/
structure Sums (elf : ElfFile) (elfBytes : List (BitVec 8)) : Prop where
  loads : ∀ h ∈ elf.programIter, h.Fits
  copies : ∀ s ∈ elf.segments, s.Fits
  images : ∀ h ∈ elf.programIter, h.ImageFits elfBytes
  brk : elf.ends.1 + 4096 < 2 ^ 64
  tls : 0 < elf.ends.2 → 0x200 + elf.ends.2 + 4096 < 2 ^ 64
  area : roundUp elf.ends.1 + brkCount elf.ends.2 * 4096 < 2 ^ 64
  phdr : firstLoadVaddr elf.programIter + elf.phOffset.toNat < 2 ^ 64

theorem sums_iff {elf : ElfFile} {elfBytes : List (BitVec 8)} : Sums elf elfBytes ↔
    (∀ h ∈ elf.programIter, h.Fits) ∧ (∀ s ∈ elf.segments, s.Fits) ∧
    (∀ h ∈ elf.programIter, h.ImageFits elfBytes) ∧ elf.ends.1 + 4096 < 2 ^ 64 ∧
    (0 < elf.ends.2 → 0x200 + elf.ends.2 + 4096 < 2 ^ 64) ∧
    roundUp elf.ends.1 + brkCount elf.ends.2 * 4096 < 2 ^ 64 ∧
    firstLoadVaddr elf.programIter + elf.phOffset.toNat < 2 ^ 64 :=
  ⟨fun ⟨h₁, h₂, h₃, h₄, h₅, h₆, h₇⟩ => ⟨h₁, h₂, h₃, h₄, h₅, h₆, h₇⟩,
    fun ⟨h₁, h₂, h₃, h₄, h₅, h₆, h₇⟩ => ⟨h₁, h₂, h₃, h₄, h₅, h₆, h₇⟩⟩

instance (elf : ElfFile) (elfBytes : List (BitVec 8)) : Decidable (Sums elf elfBytes) :=
  decidable_of_iff _ sums_iff.symm

theorem ElfFile.mem_segments {elf : ElfFile} {s : Segment} (hs : s ∈ elf.segments) :
    (∃ h ∈ elf.programIter, h.type = .load ∧ s = segmentOf h) ∧ s.stop ≤ roundUp elf.ends.1 := by
  obtain ⟨hh, hle⟩ := mem_plan_segs ((sortSegments_perm _).mem_iff.mp hs)
  have hends : (plan elf.programIter).dataEnd ≤ elf.ends.1 := le_tlsPlan elf.programIter (_, _)
  exact ⟨hh, hle.trans (roundUp_mono hends)⟩

end QuackOS.Elf
