import QuackOS.Elf.Plan

/-!
# Loading an untrusted ELF

* `LoadSafe` — neither `load_elf_bytes` nor `spawn_user_thread_in_as` panics, and every page is a
  user's;
* `loadElfBytes_exactly` — with frames for all pages, the load panics just when a sum overflows, and
  maps `ElfFile.pages`;
* `loadElfBytes_oneFrame` — with one frame left, it panics for every ELF;
* `load_safe_iff` — **when loading is safe**.
-/

namespace QuackOS.Elf

open Mm Fallible

/-! ## Enough frames -/

/-- The table is clean, and there are frames for `n` pages: one for each, and nine for the tables it
may need. -/
structure Loader.Ready (l : Loader) (n : ℕ) : Prop where
  clean : Clean l.pt l.ph
  frames : 10 * n ≤ l.ph.free.length

/-- A way to fill pages: it writes to the frame only, and panics unless `need` holds of the page. -/
structure Fills (fill : ℕ → ℕ → Phys → Option Phys) (need : ℕ → Prop) : Prop where
  isSome : ∀ f va ph, (fill f va ph).isSome ↔ need va
  eq : ∀ f va ph ph', fill f va ph = some ph' → ∃ ws, ph' = ph.fill f ws

theorem fills_zeroPage : Fills zeroPage fun _ => True where
  isSome _ _ _ := iff_of_true rfl trivial
  eq _ _ _ _ h := ⟨_, (Option.some.inj h).symm⟩

theorem fills_segment (s : Segment) (elfBytes : List (BitVec 8)) :
    Fills (fillSegment s elfBytes) fun va => CopyFits va s.vaddr s.filesz s.offset where
  isSome _ _ _ := fillSegment_isSome
  eq _ _ _ _ h := (fillSegment_spec h).1

section Pages

variable {l : Loader} {n va : ℕ} {vas : List ℕ} {oom : String} {flags : BitVec 16}
  {fill : ℕ → ℕ → Phys → Option Phys} {need : ℕ → Prop} {elfBytes : List (BitVec 8)}

/-- A page is mapped unless its contents do not fit. -/
theorem mapPage_exactly (hl : l.Ready (n + 1)) (hfill : Fills fill need) :
    Exactly (mapPage oom flags fill va) l (need va)
      fun _ l' => l'.Ready n ∧ l'.mapped = va :: l.mapped := by
  have hframes := hl.frames
  rcases allocPage_cases hl.clean.wf.ok with ⟨hnil, -⟩ | ⟨f, rest, hfree, ha⟩
  · rw [hnil, List.length_nil] at hframes
    omega
  rw [hfree, List.length_cons] at hframes
  have hrun : mapPage oom flags fill va l = (fill f va (l.ph.pop f rest)).bind fun ph =>
      (l.pt.map ph (va >>> 12) f (Bmm.toPteFlags flags)).bind fun r =>
        some (.ok (), { pt := r.1, ph := r.2, mapped := va :: l.mapped }) := by
    rw [mapPage, ha]
    rfl
  refine ⟨fun hneed => ?_, fun hneed => ?_⟩
  · obtain ⟨ph₁, hph₁⟩ := Option.isSome_iff_exists.mp ((hfill.isSome f va (l.ph.pop f rest)).mpr hneed)
    obtain ⟨ws, hws⟩ := hfill.eq f va _ _ hph₁
    have hpop : ph₁ = l.ph.popFill f rest ws := hws
    have hlen : 9 ≤ (l.ph.popFill f rest ws).free.length := by
      show 9 ≤ rest.length
      omega
    obtain ⟨pt', ph', hm, hle⟩ := @map_returns l.pt (l.ph.popFill f rest ws) (va >>> 12) f
      (Bmm.toPteFlags flags) (wf_popFill hl.clean.wf hfree) hlen
    refine ⟨(), ⟨pt', ph', va :: l.mapped⟩, ?_, ⟨(hl.clean.place hfree hm).clean, ?_⟩, rfl⟩
    · rw [hrun, hph₁, Option.bind_some, hpop, hm]
      rfl
    · have hrest : (l.ph.popFill f rest ws).free.length = rest.length := rfl
      show 10 * n ≤ ph'.free.length
      omega
  · have hnone : fill f va (l.ph.pop f rest) = none := by
      rw [← Option.not_isSome_iff_eq_none, hfill.isSome]
      exact hneed
    rw [hrun, hnone]
    rfl

theorem mapPages_exactly (hl : l.Ready (n + vas.length)) (hfill : Fills fill need) :
    Exactly (mapPages oom flags fill vas) l (∀ va ∈ vas, need va)
      fun _ l' => l'.Ready n ∧ l'.mapped = vas.reverse ++ l.mapped := by
  induction vas generalizing l with
  | nil => exact (Exactly.pure ⟨hl, rfl⟩).congr (iff_of_true trivial fun _ h => absurd h List.not_mem_nil)
  | cons va vas ih =>
    have hl' : l.Ready (n + vas.length + 1) := hl
    refine ((mapPage_exactly hl' hfill).bind fun _ l₁ h₁ => ?_).congr List.forall_mem_cons.symm
    obtain ⟨hready, hmapped⟩ := h₁
    have hrest := ih hready
    rw [hmapped] at hrest
    simp only [List.reverse_cons, List.append_assoc, List.singleton_append]
    exact hrest

/-- **Phase 3.** -/
theorem mapSegments_exactly {ss : List Segment} {lastEnd : ℕ} (hreg : ∀ s ∈ ss, s.Regular)
    (hl : l.Ready (n + (segmentPages ss lastEnd).length)) :
    Exactly (mapSegments elfBytes ss lastEnd) l (∀ s ∈ ss, s.Fits) fun stop l' =>
      stop = lastStop ss lastEnd ∧ l'.Ready n ∧
        l'.mapped = (segmentPages ss lastEnd).reverse ++ l.mapped := by
  induction ss generalizing l lastEnd with
  | nil =>
    exact (Exactly.pure ⟨rfl, hl, rfl⟩).congr (iff_of_true trivial fun _ h => absurd h List.not_mem_nil)
  | cons s ss ih =>
    have hs : s.Regular := hreg s (List.mem_cons_self ..)
    simp only [segmentPages, List.length_append] at hl ⊢
    have hgap : l.Ready (n + (segmentPages ss s.stop).length + (pagesBetween s.start s.stop).length +
        (gapPages lastEnd s).length) := by
      convert hl using 1
      omega
    have hrest : ∀ l₁ l₂ : Loader, l₁.mapped = (gapPages lastEnd s).reverse ++ l.mapped →
        l₂.Ready (n + (segmentPages ss s.stop).length) →
        l₂.mapped = (pagesBetween s.start s.stop).reverse ++ l₁.mapped →
        Exactly (mapSegments elfBytes ss s.stop) l₂ (∀ t ∈ ss, t.Fits) fun stop l' =>
          stop = lastStop ss s.stop ∧ l'.Ready n ∧ l'.mapped =
            (gapPages lastEnd s ++ pagesBetween s.start s.stop ++ segmentPages ss s.stop).reverse ++
              l.mapped := by
      intro l₁ l₂ h₁ hready h₂
      have hih := ih (fun t ht => hreg t (List.mem_cons_of_mem s ht)) hready
      rw [h₂, h₁] at hih
      simp only [List.reverse_append, List.append_assoc] at hih ⊢
      exact hih
    have hpages := (@mapPages_exactly l _ _ "OOM filling segment gap" anonFlags _ _ hgap
      fills_zeroPage).bind fun _ l₁ h₁ =>
        (@mapPages_exactly l₁ _ _ "OOM loading ELF segment" s.mapf _ _ h₁.1
          (fills_segment s elfBytes)).bind fun _ l₂ h₂ => hrest l₁ l₂ h₁.2 h₂.1 h₂.2
    refine Exactly.congr hpages ?_
    rw [List.forall_mem_cons, hs.fits_iff]
    exact ⟨fun h => h.2, fun h => ⟨fun _ _ => trivial, h⟩⟩

end Pages

/-! ## The TLS image and the area at `brk` -/

section Phases

variable {l : Loader} {n : ℕ} {elfBytes : List (BitVec 8)} {h : ProgramHeader}
  {headers : List ProgramHeader} {I : Loader → Prop}

/-- What the pages of an image may do to the state. -/
def KeptByPatch (elfBytes : List (BitVec 8)) (I : Loader → Prop) : Prop :=
  ∀ l vaddr copyLen offset va, I l → CopyFits va vaddr copyLen offset →
    Exactly (patchPage elfBytes vaddr copyLen offset va) l True fun _ l' => I l'

theorem patchPages_exactly (hI : KeptByPatch elfBytes I) (hl : I l) {vaddr copyLen offset : ℕ}
    {vas : List ℕ} (hfit : ∀ va ∈ vas, CopyFits va vaddr copyLen offset) :
    Exactly (patchPages elfBytes vaddr copyLen offset vas) l True fun _ l' => I l' := by
  induction vas generalizing l with
  | nil => exact Exactly.pure hl
  | cons va vas ih =>
    have hrest : ∀ l₁, I l₁ → Exactly (patchPages elfBytes vaddr copyLen offset vas) l₁ True
        fun _ l' => I l' := fun l₁ h₁ => ih h₁ fun u hu => hfit u (List.mem_cons_of_mem va hu)
    exact ((hI l vaddr copyLen offset va hl (hfit va (List.mem_cons_self ..))).bind
      fun _ l₁ h₁ => hrest l₁ h₁).congr (and_self_iff)

/-- The pages of an image fit when its end can be rounded up. -/
theorem image_fits {va : ℕ} (hlen : elfBytes.length < 2 ^ 64) (hne : tlsCopyLen elfBytes h ≠ 0)
    (hend : h.virtualAddr.toNat + tlsCopyLen elfBytes h + 4096 < 2 ^ 64)
    (hva : va ∈ pagesBetween (pageAlignDown h.virtualAddr.toNat)
      (roundUp (h.virtualAddr.toNat + tlsCopyLen elfBytes h))) :
    CopyFits va h.virtualAddr.toNat (tlsCopyLen elfBytes h) h.offset.toNat := by
  obtain ⟨hmod, -, hlt⟩ := (mem_pagesBetween_iff (pageAlignDown_mod _)).mp hva
  have hup := roundUp_lt (h.virtualAddr.toNat + tlsCopyLen elfBytes h)
  have hum := roundUp_mod (h.virtualAddr.toNat + tlsCopyLen elfBytes h)
  have hin := tlsCopyLen_le h hne
  exact ⟨by omega, by omega, fun _ => by omega⟩

theorem add_exactly (a b : ℕ) (l : Loader) : Exactly (Fallible.lift (add a b) : Load ℕ) l
    (a + b < 2 ^ 64) fun e l' => e = a + b ∧ l' = l :=
  Exactly.lift (fun hlt => ⟨_, add_of_lt hlt, rfl, rfl⟩) add_of_not_lt

theorem pageAlignUp_exactly (a : ℕ) (l : Loader) : Exactly (Fallible.lift (pageAlignUp a) : Load ℕ) l
    (a + 4096 < 2 ^ 64) fun stop l' => stop = roundUp a ∧ l' = l ∧ a + 4096 < 2 ^ 64 :=
  Exactly.lift (fun hlt => ⟨_, pageAlignUp_of_lt hlt, rfl, rfl, hlt⟩) pageAlignUp_of_not_lt

theorem loadTlsHeader_exactly (hI : KeptByPatch elfBytes I) (hl : I l)
    (hlen : elfBytes.length < 2 ^ 64) (r : ℕ × ℕ) :
    Exactly (loadTlsHeader elfBytes h r.1 r.2) l (h.ImageFits elfBytes)
      fun r' l' => r' = tlsHeader r h ∧ I l' := by
  unfold loadTlsHeader
  by_cases himage : h.IsImage
  case neg =>
    have hplan : tlsHeader r h = r := if_neg himage
    rw [if_pos (ProgramHeader.not_isImage.mp himage), hplan]
    exact (Exactly.pure ⟨rfl, hl⟩).congr (iff_of_true trivial fun hc => absurd hc himage)
  rw [if_neg fun hskip => ProgramHeader.not_isImage.mpr hskip himage]
  have hplan := tlsHeader_of_image himage r
  have himageEnd := add_exactly h.virtualAddr.toNat h.fileSize.toNat l
  by_cases hne : tlsCopyLen elfBytes h = 0
  · refine Exactly.congr (himageEnd.bind_of_eq fun l₁ h₁ => (?_ : Exactly _ l₁ True _)) ?_
    · subst h₁
      dsimp only
      rw [← hplan, if_pos hne]
      exact Exactly.pure ⟨rfl, hl⟩
    · exact ⟨fun hok _ => ⟨hok.1, fun hc => absurd hne hc⟩, fun hfit => ⟨(hfit himage).1, trivial⟩⟩
  · refine Exactly.congr (himageEnd.bind_of_eq fun l₁ h₁ => (?_ : Exactly _ l₁
      (h.virtualAddr.toNat + tlsCopyLen elfBytes h < 2 ^ 64 ∧
        h.virtualAddr.toNat + tlsCopyLen elfBytes h + 4096 < 2 ^ 64 ∧ True ∧ True) _)) ?_
    · subst h₁
      dsimp only
      rw [← hplan, if_neg hne]
      refine (add_exactly _ _ l₁).bind_of_eq fun l₂ h₂ => ?_
      refine (pageAlignUp_exactly _ l₂).bind_of_eq fun l₃ h₃ => ?_
      obtain ⟨rfl, hend⟩ := h₃
      subst h₂
      exact (patchPages_exactly hI hl fun va hva => image_fits hlen hne hend hva).bind
        fun _ l₄ h₄ => Exactly.pure ⟨rfl, h₄⟩
    · refine ⟨fun hok _ => ⟨hok.1, fun _ => hok.2.2.1⟩, fun hfit => ?_⟩
      obtain ⟨himg, hcopy⟩ := hfit himage
      have hlt := hcopy hne
      exact ⟨himg, by omega, hlt, trivial, trivial⟩

/-- **Phase 3.5.** -/
theorem loadTls_exactly (hI : KeptByPatch elfBytes I) (hl : I l) (hlen : elfBytes.length < 2 ^ 64)
    (r : ℕ × ℕ) : Exactly (loadTls elfBytes headers r.1 r.2) l (∀ h ∈ headers, h.ImageFits elfBytes)
      fun r' l' => r' = tlsPlan headers r ∧ I l' := by
  induction headers generalizing l r with
  | nil =>
    exact (Exactly.pure ⟨rfl, hl⟩).congr (iff_of_true trivial fun _ h => absurd h List.not_mem_nil)
  | cons h headers ih =>
    have hrest : ∀ r₁ l₁, r₁ = tlsHeader r h ∧ I l₁ →
        Exactly (loadTls elfBytes headers r₁.1 r₁.2) l₁ (∀ h ∈ headers, h.ImageFits elfBytes)
          fun r' l' => r' = tlsPlan (h :: headers) r ∧ I l' := by
      rintro r₁ l₁ ⟨rfl, h₁⟩
      exact ih h₁ (tlsHeader r h)
    exact ((loadTlsHeader_exactly hI hl hlen r).bind hrest).congr List.forall_mem_cons.symm

/-- The sums of phase 4. -/
structure BrkFits (dataEnd tlsMemsz : ℕ) : Prop where
  brk : dataEnd + 4096 < 2 ^ 64
  tls : 0 < tlsMemsz → 0x200 + tlsMemsz + 4096 < 2 ^ 64
  area : roundUp dataEnd + brkCount tlsMemsz * 4096 < 2 ^ 64

/-- Phase 4 maps its pages unless a sum overflows; they lie behind the segments. -/
theorem mapBrk_eq {dataEnd tlsMemsz lastEnd : ℕ} (hle : lastEnd ≤ roundUp dataEnd)
    (hfit : BrkFits dataEnd tlsMemsz) :
    mapBrk dataEnd tlsMemsz lastEnd l =
      mapPages "OOM mapping brk area" anonFlags zeroPage (brkArea dataEnd tlsMemsz) l := by
  obtain ⟨hbrk, htls, harea⟩ := hfit
  have hdown : pageAlignDown (roundUp dataEnd) = roundUp dataEnd := pageAlignDown_of_mod (roundUp_mod _)
  have hmul : mul (brkCount tlsMemsz) 4096 = some (brkCount tlsMemsz * 4096) := if_pos (by omega)
  unfold mapBrk
  rw [pageAlignUp_of_lt hbrk, bind_run_ok (lift_run_some _ l), brkPages_of_lt htls,
    bind_run_ok (lift_run_some _ l), if_pos hle, hdown, hmul, bind_run_ok (lift_run_some _ l),
    add_of_lt harea, bind_run_ok (lift_run_some _ l)]
  rfl

theorem mapBrk_of_not_fits {dataEnd tlsMemsz lastEnd : ℕ} (hle : lastEnd ≤ roundUp dataEnd)
    (hfit : ¬ BrkFits dataEnd tlsMemsz) : mapBrk dataEnd tlsMemsz lastEnd l = none := by
  have hdown : pageAlignDown (roundUp dataEnd) = roundUp dataEnd := pageAlignDown_of_mod (roundUp_mod _)
  unfold mapBrk
  by_cases hbrk : dataEnd + 4096 < 2 ^ 64
  case neg =>
    rw [pageAlignUp_of_not_lt hbrk]
    exact bind_run_none (lift_run_none l)
  rw [pageAlignUp_of_lt hbrk, bind_run_ok (lift_run_some _ l)]
  by_cases htls : 0 < tlsMemsz → 0x200 + tlsMemsz + 4096 < 2 ^ 64
  case neg =>
    rw [brkPages_of_not_lt htls]
    exact bind_run_none (lift_run_none l)
  rw [brkPages_of_lt htls, bind_run_ok (lift_run_some _ l), if_pos hle, hdown]
  have harea : ¬ roundUp dataEnd + brkCount tlsMemsz * 4096 < 2 ^ 64 :=
    fun harea => hfit ⟨hbrk, htls, harea⟩
  by_cases hmul : brkCount tlsMemsz * 4096 < 2 ^ 64
  · rw [show mul (brkCount tlsMemsz) 4096 = some (brkCount tlsMemsz * 4096) from if_pos hmul,
      bind_run_ok (lift_run_some _ l), add_of_not_lt harea]
    exact bind_run_none (lift_run_none l)
  · rw [show mul (brkCount tlsMemsz) 4096 = none from if_neg hmul]
    exact bind_run_none (lift_run_none l)

/-- **Phase 4.** -/
theorem mapBrk_exactly {dataEnd tlsMemsz lastEnd : ℕ} (hle : lastEnd ≤ roundUp dataEnd)
    (hl : l.Ready (n + (brkArea dataEnd tlsMemsz).length)) :
    Exactly (mapBrk dataEnd tlsMemsz lastEnd) l (BrkFits dataEnd tlsMemsz)
      fun _ l' => l'.Ready n ∧ l'.mapped = (brkArea dataEnd tlsMemsz).reverse ++ l.mapped := by
  refine ⟨fun hfit => ?_, mapBrk_of_not_fits hle⟩
  rw [mapBrk_eq hle hfit]
  exact (mapPages_exactly hl fills_zeroPage).ends fun _ _ => trivial

/-- Writing to the frame of a page keeps the frames that are left. -/
theorem keptByPatch_ready (mapped : List ℕ) :
    KeptByPatch elfBytes fun l => l.Ready n ∧ l.mapped = mapped := by
  rintro l vaddr copyLen offset va ⟨hl, hmapped⟩ hfit
  refine ⟨fun _ => ?_, fun hno => absurd trivial hno⟩
  rw [patchPage_eq]
  cases hs : shown l.pt l.ph (va >>> 12) with
  | none => exact ⟨(), l, rfl, hl, hmapped⟩
  | some w =>
    obtain ⟨ph, hph⟩ := Option.isSome_iff_exists.mp
      ((@copySegmentData_isSome (Pte.ppn w) va vaddr copyLen offset elfBytes l.ph).mpr hfit)
    obtain ⟨⟨ws, rfl⟩, -⟩ := copySegmentData_spec hph
    refine ⟨(), { l with ph := l.ph.fill (Pte.ppn w) ws }, ?_, ⟨?_, hl.frames⟩, hmapped⟩
    · dsimp only
      rw [hph]
      rfl
    · exact hl.clean.fill (hl.clean.outside hs)

end Phases

/-! ## The load -/

section Load

variable {l : Loader} {n : ℕ} {parse : List (BitVec 8) → Option ElfFile} {elfBytes : List (BitVec 8)}
  {elf : ElfFile}

/-- The segments end before the area at `brk`. -/
theorem lastStop_le_ends {dataEnd tlsMemsz : ℕ} (hends : (dataEnd, tlsMemsz) = elf.ends) :
    lastStop elf.segments 0 ≤ roundUp dataEnd := by
  have hle : lastStop elf.segments 0 ≤ roundUp elf.ends.1 :=
    lastStop_le (Nat.zero_le _) fun _ hs => (ElfFile.mem_segments hs).2
  rwa [← hends] at hle

/-- **With frames for all its pages, a load panics just when a sum overflows.** -/
theorem loadElfBytes_exactly (hparse : parse elfBytes = some elf) (hlen : elfBytes.length < 2 ^ 64)
    (hl : l.Ready (n + elf.pages.length)) :
    Exactly (loadElfBytes parse elfBytes) l (Sums elf elfBytes)
      fun r l' => r.entry = elf.entryPoint.toNat ∧ l'.mapped = elf.pages.reverse ++ l.mapped := by
  have hready : l.Ready (n + (brkArea elf.ends.1 elf.ends.2).length +
      (segmentPages elf.segments 0).length) := by
    convert hl using 1
    rw [ElfFile.pages, List.length_append]
    omega
  have hcollect : Exactly (Fallible.lift (collect elf.programIter) : Load Collected) l
      (∀ h ∈ elf.programIter, h.Fits) fun c l' =>
        c = plan elf.programIter ∧ l' = l ∧ ∀ s ∈ elf.segments, s.Regular := by
    refine Exactly.lift (fun hfit => ⟨_, collect_of_fits hfit, rfl, rfl, fun s hs => ?_⟩)
      collect_of_not_fits
    obtain ⟨⟨h, hh, ht, rfl⟩, -⟩ := ElfFile.mem_segments hs
    exact regular_segmentOf ht (hfit h hh)
  have hok : Sums elf elfBytes ↔ (∀ h ∈ elf.programIter, h.Fits) ∧ (∀ s ∈ elf.segments, s.Fits) ∧
      (∀ h ∈ elf.programIter, h.ImageFits elfBytes) ∧ BrkFits elf.ends.1 elf.ends.2 ∧
        firstLoadVaddr elf.programIter + elf.phOffset.toNat < 2 ^ 64 ∧ elf.ends.1 + 4096 < 2 ^ 64 ∧
          True := by
    exact ⟨fun ⟨h₁, h₂, h₃, h₄, h₅, h₆, h₇⟩ => ⟨h₁, h₂, h₃, ⟨h₄, h₅, h₆⟩, h₇, h₄, trivial⟩,
      fun ⟨h₁, h₂, h₃, ⟨h₄, h₅, h₆⟩, h₇, _, _⟩ => ⟨h₁, h₂, h₃, h₄, h₅, h₆, h₇⟩⟩
  refine Exactly.congr ?_ hok.symm
  unfold loadElfBytes
  rw [hparse]
  refine hcollect.bind_of_eq fun l₁ h₁ => ?_
  obtain ⟨rfl, hreg⟩ := h₁
  refine (mapSegments_exactly hreg hready).bind_of_eq fun l₂ h₂ => ?_
  have htls : Exactly (loadTls elfBytes elf.programIter (plan elf.programIter).dataEnd
      (plan elf.programIter).tlsMemsz) l₂ (∀ h ∈ elf.programIter, h.ImageFits elfBytes) fun r l' =>
        r = elf.ends ∧ l'.Ready (n + (brkArea elf.ends.1 elf.ends.2).length) ∧
          l'.mapped = (segmentPages elf.segments 0).reverse ++ l₁.mapped :=
    loadTls_exactly (keptByPatch_ready _) h₂ hlen
      ((plan elf.programIter).dataEnd, (plan elf.programIter).tlsMemsz)
  refine htls.bind fun r l₃ h₃ => ?_
  obtain ⟨dataEnd, tlsMemsz⟩ := r
  obtain ⟨hends, hready₃, hmapped₃⟩ := h₃
  rw [ElfFile.pages]
  rw [← hends] at hready₃ ⊢
  dsimp only at hready₃ ⊢
  refine (mapBrk_exactly (lastStop_le_ends hends) hready₃).bind fun _ l₄ h₄ => ?_
  refine (add_exactly _ _ l₄).bind fun phdrAddr l₅ h₅ => ?_
  refine (pageAlignUp_exactly _ l₅).bind fun brk l₆ h₆ => Exactly.pure ⟨rfl, ?_⟩
  rw [h₆.2.1, h₅.2, h₄.2, hmapped₃, List.reverse_append, List.append_assoc]

end Load

/-! ## One frame -/

/-- A new table and one more frame: it is enough for a page, but not for the table the page needs. -/
structure Loader.OneFrame (l : Loader) : Prop where
  wf : l.pt.Wf l.ph
  find : ∀ v, l.pt.findPte l.ph v = none
  free : ∃ f, l.ph.free = [f]

section OneFrame

variable {l : Loader} {oom : String} {flags : BitVec 16} {fill : ℕ → ℕ → Phys → Option Phys}
  {need : ℕ → Prop} {elfBytes : List (BitVec 8)}

theorem mapPage_oneFrame (hl : l.OneFrame) (hfill : Fills fill need) (va : ℕ) :
    mapPage oom flags fill va l = none := by
  obtain ⟨f, hfree⟩ := hl.free
  rcases allocPage_cases hl.wf.ok with ⟨hnil, -⟩ | ⟨f', rest, hfree', ha⟩
  · rw [hnil] at hfree
    cases hfree
  obtain ⟨rfl, rfl⟩ := List.cons.inj (hfree'.symm.trans hfree)
  rw [mapPage, ha]
  dsimp only
  cases hph : fill f' va (l.ph.pop f' []) with
  | none => rfl
  | some ph =>
    obtain ⟨ws, rfl⟩ := hfill.eq f' va _ _ hph
    -- the page's frame was the last one
    have hfind : l.pt.findPte (l.ph.popFill f' [] ws) (va >>> 12) = none := by
      rw [findPte_congr (popFill_agrees hl.wf hfree'), hl.find]
    have hmap : l.pt.map (l.ph.popFill f' [] ws) (va >>> 12) f' (Bmm.toPteFlags flags) = none :=
      map_of_no_frame rfl hfind
    rw [Option.bind_eq_bind, Option.bind_some,
      show (l.ph.pop f' []).fill f' ws = l.ph.popFill f' [] ws from rfl, hmap]
    rfl

theorem mapPages_oneFrame (hl : l.OneFrame) (hfill : Fills fill need) {vas : List ℕ} (hne : vas ≠ []) :
    mapPages oom flags fill vas l = none := by
  cases vas with
  | nil => exact absurd rfl hne
  | cons va vas => exact bind_run_none (mapPage_oneFrame hl hfill va)

/-- The pages of a gap or a segment, if there are any. -/
theorem mapPages_oneFrame_cases (hl : l.OneFrame) (hfill : Fills fill need) (vas : List ℕ) :
    mapPages oom flags fill vas l = none ∨ mapPages oom flags fill vas l = some (.ok (), l) := by
  cases vas with
  | nil => exact Or.inr rfl
  | cons va vas => exact Or.inl (mapPages_oneFrame hl hfill (List.cons_ne_nil va vas))

theorem mapSegments_oneFrame (hl : l.OneFrame) (ss : List Segment) (lastEnd : ℕ) :
    mapSegments elfBytes ss lastEnd l = none ∨
      mapSegments elfBytes ss lastEnd l = some (.ok (lastStop ss lastEnd), l) := by
  induction ss generalizing lastEnd with
  | nil => exact Or.inr rfl
  | cons s ss ih =>
    rw [mapSegments]
    rcases @mapPages_oneFrame_cases l "OOM filling segment gap" anonFlags _ _ hl fills_zeroPage
      (gapPages lastEnd s) with hgap | hgap
    · exact Or.inl (bind_run_none hgap)
    rw [bind_run_ok hgap]
    rcases @mapPages_oneFrame_cases l "OOM loading ELF segment" s.mapf _ _ hl
      (fills_segment s elfBytes) (pagesBetween s.start s.stop) with hseg | hseg
    · exact Or.inl (bind_run_none hseg)
    rw [bind_run_ok hseg]
    exact ih s.stop

theorem keptByPatch_oneFrame (hl : l.OneFrame) : KeptByPatch elfBytes (· = l) := by
  rintro _ vaddr copyLen offset va rfl -
  refine ⟨fun _ => ⟨(), _, ?_, rfl⟩, fun hno => absurd trivial hno⟩
  rw [patchPage, hl.find]

/-- **With one frame left every load panics**: if no segment has a page, the area at `brk` has one. -/
theorem loadElfBytes_oneFrame {parse : List (BitVec 8) → Option ElfFile} {elf : ElfFile}
    (hl : l.OneFrame) (hparse : parse elfBytes = some elf) (hlen : elfBytes.length < 2 ^ 64) :
    loadElfBytes parse elfBytes l = none := by
  unfold loadElfBytes
  rw [hparse]
  dsimp only
  by_cases hloads : ∀ h ∈ elf.programIter, h.Fits
  case neg =>
    rw [collect_of_not_fits hloads]
    exact bind_run_none (lift_run_none l)
  rw [collect_of_fits hloads, bind_run_ok (lift_run_some _ l)]
  rcases @mapSegments_oneFrame l elfBytes hl elf.segments 0 with hsegs | hsegs
  · exact bind_run_none hsegs
  rw [show sortSegments (plan elf.programIter).segs = elf.segments from rfl, bind_run_ok hsegs]
  have htls : Exactly (loadTls elfBytes elf.programIter (plan elf.programIter).dataEnd
      (plan elf.programIter).tlsMemsz) l (∀ h ∈ elf.programIter, h.ImageFits elfBytes)
      fun r l' => r = elf.ends ∧ l' = l :=
    loadTls_exactly (keptByPatch_oneFrame hl) rfl hlen
      ((plan elf.programIter).dataEnd, (plan elf.programIter).tlsMemsz)
  by_cases himages : ∀ h ∈ elf.programIter, h.ImageFits elfBytes
  case neg => exact bind_run_none (htls.panics himages)
  obtain ⟨⟨dataEnd, tlsMemsz⟩, l', hrun, hends, rfl⟩ := htls.ends himages
  rw [bind_run_ok hrun]
  have hlast := lastStop_le_ends hends
  have harea : mapBrk dataEnd tlsMemsz (lastStop elf.segments 0) l' = none := by
    by_cases hbrk : BrkFits dataEnd tlsMemsz
    · rw [mapBrk_eq hlast hbrk]
      have hpos := brkCount_pos tlsMemsz
      exact mapPages_oneFrame hl fills_zeroPage (pagesBetween_ne_nil (by omega))
    · exact mapBrk_of_not_fits hlast hbrk
  dsimp only
  rw [bind_run_none harea]

end OneFrame

/-! ## The first thread -/

/-- `spawn_user_thread_in_as` does not panic, whatever the state of the allocator. -/
def SpawnSafe (entry stackTop : ℕ) : Prop :=
  ∀ p : Pool, p.phys.Ok → p.freeCount = p.phys.free.length →
    spawnUserThreadInAs p entry stackTop ≠ none

/-- A machine with sixteen free pages, counted. -/
def sixteenPages : Pool := { phys := sixteenFrames, freeCount := 16 }

/-- **The first thread can be built just when its stack pointer can be moved down.** -/
theorem spawnSafe_iff {entry stackTop : ℕ} : SpawnSafe entry stackTop ↔ 16 ≤ stackTop := by
  constructor
  · intro hsafe
    by_contra hlow
    have hbase : (sixteenPages.allocPagesContig 8).map Prod.fst = some (some 0x50000) := by
      decide
    obtain ⟨⟨base, p⟩, hrun, hbase⟩ := Option.map_eq_some_iff.mp hbase
    obtain rfl : base = some 0x50000 := hbase
    refine hsafe sixteenPages sixteenFrames_ok rfl ?_
    have hsub : sub stackTop 16 = none := if_neg hlow
    rw [spawnUserThreadInAs, hrun, hsub]
    rfl
  · intro hhigh p hok hcount
    have hsound : p.Sound p.phys.free := ⟨hok.marked, hcount, fun f hf => hf, hok.tracked⟩
    obtain ⟨r, p', hrun, -, hsome, -⟩ := hsound.allocPagesContig 8
    rw [spawnUserThreadInAs, hrun]
    cases r with
    | none => exact Option.some_ne_none _
    | some base =>
      have hmem : base ∈ p.phys.free :=
        (hsome base rfl).subset (List.mem_append_left _ (List.mem_range'.mpr ⟨0, by decide, by omega⟩))
      have hlt : base < 2 ^ 36 := hok.lt_of_tracked (hok.tracked base hmem)
      have hks : add (base * 4096) (8 * 4096) = some (base * 4096 + 8 * 4096) := add_of_lt (by omega)
      have hctx : sub (base * 4096 + 8 * 4096) 128 = some (base * 4096 + 8 * 4096 - 128) :=
        if_pos (by omega)
      have htf : sub (base * 4096 + 8 * 4096 - 128) 288 =
          some (base * 4096 + 8 * 4096 - 128 - 288) := if_pos (by omega)
      have hsp : sub stackTop 16 = some (stackTop - 16) := if_pos hhigh
      dsimp only
      rw [hks, Option.bind_eq_bind, Option.bind_some, hctx, Option.bind_some, htf, Option.bind_some, hsp]
      exact Option.some_ne_none _

/-! ## Kernel addresses -/

/-- The addresses that `create_kernel_mapped_page_table` maps: the gigabyte of the identity blocks and
the two device blocks. -/
def KernelMapped (va : ℕ) : Prop :=
  (0x40000000 ≤ va ∧ va < 0x80000000) ∨ va / 2 ^ 21 = 0x48 ∨ va / 2 ^ 21 = 0x50

instance (va : ℕ) : Decidable (KernelMapped va) := inferInstanceAs (Decidable (_ ∨ _))

/-- The leaves of the first gigabyte are the device blocks. -/
theorem leaf_low {ph ph' : Phys} {pt : PageTable} {root l1 tr lo mid : ℕ} {rest : List ℕ}
    (h : Created ph pt ph' root l1 tr lo mid rest) (hok : ph.Ok) (k x : Index) :
    leaf ph' root [0, 0, k, x] = none ↔ ¬ (k = 0x48 ∨ k = 0x50) := by
  have hlo : Radix.reach Pte.child ph'.page root [0, 0] = some lo := by
    rw [Radix.reach, h.child_root hok, if_pos rfl, Option.bind_some, Radix.reach, h.child_l1 hok,
      if_neg (by decide), if_pos rfl]
    rfl
  have hblock : isLeaf 2 (deviceBlock 0x09000000) = true ∧ isLeaf 2 (deviceBlock 0x0a000000) = true := by
    decide
  rw [leaf, show ([0, 0, k, x] : List Index) = [0, 0] ++ k :: x :: [] from rfl,
    stop_of_not_table hlo (h.child_lo k), h.page_lo, Option.filter_some, Function.update_apply,
    Function.update_apply]
  by_cases h50 : k = 0x50
  · rw [if_pos h50, show ([0, 0] : List Index).length = 2 from rfl, if_pos hblock.2]
    exact iff_of_false (Option.some_ne_none _) fun hno => hno (Or.inr h50)
  rw [if_neg h50]
  by_cases h48 : k = 0x48
  · rw [if_pos h48, show ([0, 0] : List Index).length = 2 from rfl, if_pos hblock.1]
    exact iff_of_false (Option.some_ne_none _) fun hno => hno (Or.inl h48)
  · rw [if_neg h48]
    refine iff_of_true (if_neg ?_) (not_or.mpr ⟨h48, h50⟩)
    exact Bool.eq_false_iff.mp (isLeaf_zero _)

/-- **What a new table translates.** -/
theorem translate_created {ph ph' : Phys} {pt : PageTable} {va : ℕ} (hok : ph.Ok)
    (hc : createKernelMappedPageTable ph = some (.ok pt, ph')) (hva : va < 2 ^ 48) :
    translate ph' pt.rootPpn va = none ↔ ¬ KernelMapped va := by
  obtain ⟨root, l1, tr, lo, mid, rest, h⟩ := create_spec hok hc
  have hleaf : translate ph' pt.rootPpn va = none ↔ leaf ph' pt.rootPpn (indexes (va / 4096)) = none := by
    rw [Mm.translate, if_pos hva, Option.map_eq_none_iff]
  rw [hleaf]
  unfold KernelMapped
  by_cases habove : 0x80000000 ≤ va
  · rw [h.handle]
    exact iff_of_true (h.leaf_above hok (by omega) (by omega)) (by omega)
  have h0 : Fin.ofNat 512 ((va / 4096) >>> 27) = 0 := by
    rw [Fin.ext_iff, Fin.val_ofNat, Nat.shiftRight_eq_div_pow]
    show va / 4096 / 2 ^ 27 % 512 = 0
    omega
  by_cases hmid : 0x40000000 ≤ va
  · have h1 : Fin.ofNat 512 ((va / 4096) >>> 18) = 1 := by
      rw [Fin.ext_iff, Fin.val_ofNat, Nat.shiftRight_eq_div_pow]
      show va / 4096 / 2 ^ 18 % 512 = 1
      omega
    rw [indexes, h0, h1, h.leaf_identity hok]
    exact iff_of_false (Option.some_ne_none _) (by omega)
  · have h1 : Fin.ofNat 512 ((va / 4096) >>> 18) = 0 := by
      rw [Fin.ext_iff, Fin.val_ofNat, Nat.shiftRight_eq_div_pow]
      show va / 4096 / 2 ^ 18 % 512 = 0
      omega
    rw [indexes, h0, h1, h.handle, leaf_low h hok, Fin.ext_iff, Fin.ext_iff, Fin.val_ofNat,
      Nat.shiftRight_eq_div_pow]
    show ¬ (va / 4096 / 2 ^ 9 % 512 = 0x48 ∨ va / 4096 / 2 ^ 9 % 512 = 0x50) ↔ _
    omega

/-! ## When loading is safe -/

/-- A page that the loader may map. -/
def UserPage (va : ℕ) : Prop := va < 2 ^ 47 ∧ ¬ KernelMapped va

instance (va : ℕ) : Decidable (UserPage va) := inferInstanceAs (Decidable (_ ∧ _))

/-- Loading the file into the table `pt` does not panic, maps user pages only, and the first thread of
the program can be built. -/
def LoadSafe (parse : List (BitVec 8) → Option ElfFile) (elfBytes : List (BitVec 8)) (stackTop : ℕ)
    (pt : PageTable) (ph : Phys) : Prop :=
  ∃ r l, loadElfBytes parse elfBytes ⟨pt, ph, []⟩ = some (r, l) ∧ (∀ va ∈ l.mapped, UserPage va) ∧
    ∀ loaded, r = .ok loaded → SpawnSafe loaded.entry stackTop

/-- The argument checks of `sys_exec`; those of `sys_spawn` allow shorter files only. -/
structure Accepted (elfBytes : List (BitVec 8)) (stackTop : ℕ) : Prop where
  pos : 0 < elfBytes.length
  len : elfBytes.length ≤ 16 * 1024 * 1024
  aligned : stackTop % 16 = 0
  user : stackTop < 2 ^ 47

/-- No sum overflows, the pages are those of a user, and the stack does not begin at address 0. -/
structure LoadFits (elf : ElfFile) (elfBytes : List (BitVec 8)) (stackTop : ℕ) : Prop where
  sums : Sums elf elfBytes
  pages : ∀ va ∈ elf.pages, UserPage va
  stack : stackTop ≠ 0

section Safe

variable {parse : List (BitVec 8) → Option ElfFile} {elfBytes : List (BitVec 8)} {elf : ElfFile}
  {stackTop : ℕ} {pt : PageTable} {ph : Phys}

/-- A file that the parser refuses is refused. -/
theorem loadSafe_of_refused (hparse : parse elfBytes = none) :
    LoadSafe parse elfBytes stackTop pt ph := by
  refine ⟨.error "Invalid ELF magic", ⟨pt, ph, []⟩, ?_, fun _ h => absurd h List.not_mem_nil,
    fun _ h => nomatch h⟩
  rw [loadElfBytes, hparse]
  rfl

/-- **With frames for all pages, a load is safe just when it fits.** -/
theorem loadSafe_iff_fits (hparse : parse elfBytes = some elf) (hacc : Accepted elfBytes stackTop)
    (hclean : Clean pt ph) (hframes : 10 * elf.pages.length ≤ ph.free.length) :
    LoadSafe parse elfBytes stackTop pt ph ↔ LoadFits elf elfBytes stackTop := by
  have hlen : elfBytes.length < 2 ^ 64 := by
    have hle := hacc.len
    omega
  have hready : (⟨pt, ph, []⟩ : Loader).Ready (0 + elf.pages.length) := by
    rw [Nat.zero_add]
    exact ⟨hclean, hframes⟩
  have hload := loadElfBytes_exactly hparse hlen hready
  by_cases hsums : Sums elf elfBytes
  case neg =>
    refine iff_of_false ?_ fun h => hsums h.sums
    rintro ⟨r, l, hrun, -⟩
    rw [hload.panics hsums] at hrun
    cases hrun
  obtain ⟨loaded, l, hrun, -, hmapped⟩ := hload.ends hsums
  have hpages : (∀ va ∈ l.mapped, UserPage va) ↔ ∀ va ∈ elf.pages, UserPage va := by
    rw [hmapped, List.append_nil]
    exact forall_congr' fun va => by rw [List.mem_reverse]
  have hstack : 16 ≤ stackTop ↔ stackTop ≠ 0 := by
    have haligned := hacc.aligned
    omega
  constructor
  · rintro ⟨r, l', hrun', huser, hspawn⟩
    rw [hrun] at hrun'
    cases hrun'
    exact ⟨hsums, hpages.mp huser, hstack.mp (spawnSafe_iff.mp (hspawn loaded rfl))⟩
  · intro hfits
    refine ⟨.ok loaded, l, hrun, hpages.mpr hfits.pages, fun e _ => ?_⟩
    exact spawnSafe_iff.mpr (hstack.mpr hfits.stack)

/-- Six frames are five for the table and one more. -/
theorem sixFrames_created : ∃ pt ph, createKernelMappedPageTable sixFrames = some (.ok pt, ph) ∧
    (⟨pt, ph, []⟩ : Loader).OneFrame := by
  obtain ⟨pt, ph, hc, -⟩ := exists_created sixFrames 1 (by decide)
  obtain ⟨root, l1, tr, lo, mid, rest, h⟩ := create_spec sixFrames_ok hc
  have htaken := h.taken_from
  simp only [sixFrames, List.cons.injEq] at htaken
  refine ⟨pt, ph, hc, h.wf sixFrames_ok, (h.clean sixFrames_ok).2, 0x50005, ?_⟩
  rw [h.free, ← htaken.2.2.2.2.2]

/-- **When loading an untrusted file is safe.**  On every machine it is so only for a file that the
parser refuses; with frames for all its pages, for one that fits. -/
theorem load_safe_iff (parse : List (BitVec 8) → Option ElfFile) (hacc : Accepted elfBytes stackTop) :
    ((∀ ph₀ pt ph, ph₀.Ok → createKernelMappedPageTable ph₀ = some (.ok pt, ph) →
      LoadSafe parse elfBytes stackTop pt ph) ↔ parse elfBytes = none) ∧
    ∀ pt ph, Clean pt ph →
      (∀ elf, parse elfBytes = some elf → 10 * elf.pages.length ≤ ph.free.length) →
      (LoadSafe parse elfBytes stackTop pt ph ↔
        ∀ elf, parse elfBytes = some elf → LoadFits elf elfBytes stackTop) := by
  refine ⟨⟨fun hsafe => ?_, fun hparse _ _ _ _ _ => loadSafe_of_refused hparse⟩,
    fun pt ph hclean hframes => ?_⟩
  · cases hparse : parse elfBytes with
    | none => rfl
    | some elf =>
      exfalso
      obtain ⟨pt, ph, hc, hone⟩ := sixFrames_created
      have hlen : elfBytes.length < 2 ^ 64 := by
        have hle := hacc.len
        omega
      obtain ⟨r, l, hrun, -⟩ := hsafe sixFrames pt ph sixFrames_ok hc
      rw [loadElfBytes_oneFrame hone hparse hlen] at hrun
      cases hrun
  · cases hparse : parse elfBytes with
    | none => exact iff_of_true (loadSafe_of_refused hparse) fun elf h => nomatch h
    | some elf =>
      rw [loadSafe_iff_fits hparse hacc hclean (hframes elf hparse)]
      constructor
      · rintro hfits _ ⟨⟩
        exact hfits
      · exact fun hfits => hfits elf rfl

/-! ## A program with one segment -/

/-- A number in the file. -/
def leBytes (n : ℕ) (w : Word) : List (BitVec 8) := (List.range n).map (Bytes.byte w)

/-- A program header in the file; its `p_paddr` and `p_align` are zero. -/
def ProgramHeader.encode (h : ProgramHeader) : List (BitVec 8) :=
  let type : Word := match h.type with
    | .load => 1
    | .tls => 7
    | .other => 0
  let flags : Word := (if h.isRead then 4 else 0) + (if h.isExecute then 1 else 0)
  leBytes 4 type ++ leBytes 4 flags ++ leBytes 8 h.offset ++ leBytes 8 h.virtualAddr ++ leBytes 8 0 ++
    leBytes 8 h.fileSize ++ leBytes 8 h.memSize ++ leBytes 8 0

/-- The file of a program: a 64-bit little-endian header, the program headers, and data. -/
def ElfFile.encode (elf : ElfFile) (data : List (BitVec 8)) : List (BitVec 8) :=
  [0x7f, 0x45, 0x4c, 0x46, 2, 1, 1, 0] ++ leBytes 8 0 ++ leBytes 2 2 ++ leBytes 2 0xb7 ++ leBytes 4 1 ++
    leBytes 8 elf.entryPoint ++ leBytes 8 elf.phOffset ++ leBytes 8 0 ++ leBytes 4 0 ++ leBytes 2 64 ++
    leBytes 2 (elf.phEntrySize.zeroExtend 64) ++ leBytes 2 (elf.phCount.zeroExtend 64) ++ leBytes 6 0 ++
    elf.programIter.flatMap ProgramHeader.encode ++ data

/-- A parser that knows this file only. -/
def ElfFile.parser (elf : ElfFile) (data elfBytes : List (BitVec 8)) : Option ElfFile :=
  if elfBytes = elf.encode data then some elf else none

theorem parser_encode (elf : ElfFile) (data : List (BitVec 8)) :
    elf.parser data (elf.encode data) = some elf := if_pos rfl

/-- A segment of sixteen bytes at `v`, the first of them in the file, and sixteen bytes of TLS. -/
def oneSegment (v : Word) : ElfFile where
  entryPoint := v
  phOffset := 64
  phEntrySize := 56
  phCount := 2
  programIter := [
    { type := .load, virtualAddr := v, memSize := 16, fileSize := 1, offset := 0, isRead := true,
      isExecute := true },
    { type := .tls, virtualAddr := 0, memSize := 16, fileSize := 0, offset := 0, isRead := true,
      isExecute := false }]

/-- Its file has 176 bytes. -/
theorem length_oneSegment (v : Word) : ((oneSegment v).encode []).length = 176 := by
  simp [ElfFile.encode, ProgramHeader.encode, oneSegment, leBytes]

theorem accepted_oneSegment (v : Word) {stackTop : ℕ} (haligned : stackTop % 16 = 0)
    (huser : stackTop < 2 ^ 47) : Accepted ((oneSegment v).encode []) stackTop := by
  refine ⟨?_, ?_, haligned, huser⟩ <;> rw [length_oneSegment] <;> decide

/-- A machine with room for the program. -/
theorem thirtyTwoFrames_created : ∃ pt ph,
    createKernelMappedPageTable thirtyTwoFrames = some (.ok pt, ph) ∧ Clean pt ph ∧
      ph.free.length = 27 := by
  obtain ⟨pt, ph, hc, hfree⟩ := exists_created thirtyTwoFrames 27 (by decide)
  obtain ⟨root, l1, tr, lo, mid, rest, h⟩ := create_spec thirtyTwoFrames_ok hc
  exact ⟨pt, ph, hc, (h.clean thirtyTwoFrames_ok).1, hfree⟩

/-- The program at 4 MiB is loaded, and with one frame left it is not. -/
theorem load_safe_iff_one :
    (∃ pt ph, createKernelMappedPageTable thirtyTwoFrames = some (.ok pt, ph) ∧
      LoadSafe ((oneSegment 0x400000).parser []) ((oneSegment 0x400000).encode []) 0x7ffffff0 pt ph) ∧
    ¬ ∀ ph₀ pt ph, ph₀.Ok → createKernelMappedPageTable ph₀ = some (.ok pt, ph) →
      LoadSafe ((oneSegment 0x400000).parser []) ((oneSegment 0x400000).encode []) 0x7ffffff0 pt ph := by
  obtain ⟨hevery, hroom⟩ := load_safe_iff ((oneSegment 0x400000).parser [])
    (accepted_oneSegment 0x400000 (show 0x7ffffff0 % 16 = 0 by decide) (by decide))
  have hparse := parser_encode (oneSegment 0x400000) []
  have hpages : (oneSegment 0x400000).pages.length = 2 := by decide +kernel
  obtain ⟨pt, ph, hc, hclean, hlen⟩ := thirtyTwoFrames_created
  refine ⟨⟨pt, ph, hc, (hroom pt ph hclean fun elf h => ?_).mpr fun elf h => ?_⟩, fun h => ?_⟩
  · obtain rfl := Option.some.inj (hparse.symm.trans h)
    rw [hpages, hlen]
    decide
  · obtain rfl := Option.some.inj (hparse.symm.trans h)
    exact ⟨by decide +kernel, by decide +kernel, by decide⟩
  · rw [hevery.mp h] at hparse
    cases hparse

/-- **What is accepted need not be safe**: a stack that begins at address 0, a segment that ends past
`usize`, and one at 1 GiB, where the new table has the kernel's identity mapping. -/
theorem accepted_load_unsafe : ∃ pt ph,
    createKernelMappedPageTable thirtyTwoFrames = some (.ok pt, ph) ∧
      (∀ v, Accepted ((oneSegment v).encode []) 0 ∧ Accepted ((oneSegment v).encode []) 0x7ffffff0) ∧
      ¬ LoadSafe ((oneSegment 0x400000).parser []) ((oneSegment 0x400000).encode []) 0 pt ph ∧
      loadElfBytes ((oneSegment 0xfffffffffffffff8).parser [])
        ((oneSegment 0xfffffffffffffff8).encode []) ⟨pt, ph, []⟩ = none ∧
      translate ph pt.rootPpn 0x40000000 ≠ none ∧
      ∃ loaded l, loadElfBytes ((oneSegment 0x40000000).parser []) ((oneSegment 0x40000000).encode [])
        ⟨pt, ph, []⟩ = some (.ok loaded, l) ∧ 0x40000000 ∈ l.mapped := by
  have haccepted : ∀ v, Accepted ((oneSegment v).encode []) 0 ∧
      Accepted ((oneSegment v).encode []) 0x7ffffff0 := fun v =>
    ⟨accepted_oneSegment v (by decide) (by decide), accepted_oneSegment v (by decide) (by decide)⟩
  have hlow : (oneSegment 0x400000).pages.length = 2 := by decide +kernel
  have hhigh : (oneSegment 0x40000000).pages.length = 2 := by decide +kernel
  have hmem : 0x40000000 ∈ (oneSegment 0x40000000).pages := by decide +kernel
  obtain ⟨pt, ph, hc, hclean, hlen⟩ := thirtyTwoFrames_created
  refine ⟨pt, ph, hc, haccepted, fun hsafe => ?_, ?_, fun hnone => ?_, ?_⟩
  · have hframes : 10 * (oneSegment 0x400000).pages.length ≤ ph.free.length := by
      rw [hlow, hlen]
      decide
    have hfits := (loadSafe_iff_fits (parser_encode _ _) (haccepted 0x400000).1 hclean hframes).mp hsafe
    exact hfits.stack rfl
  · have hcollect : collect (oneSegment 0xfffffffffffffff8).programIter = none :=
      collect_of_not_fits (by decide +kernel)
    unfold loadElfBytes
    rw [parser_encode]
    dsimp only
    rw [hcollect]
    exact bind_run_none (lift_run_none _)
  · have hkernel : KernelMapped 0x40000000 := by decide
    exact (translate_created thirtyTwoFrames_ok hc (by decide)).mp hnone hkernel
  · have hready : (⟨pt, ph, []⟩ : Loader).Ready (0 + (oneSegment 0x40000000).pages.length) := by
      rw [Nat.zero_add, hhigh]
      exact ⟨hclean, by rw [hlen]; decide⟩
    have hbytes : ((oneSegment 0x40000000).encode []).length < 2 ^ 64 := by
      rw [length_oneSegment]
      decide
    obtain ⟨loaded, l, hrun, -, hmapped⟩ :=
      (loadElfBytes_exactly (parser_encode _ _) hbytes hready).ends (by decide +kernel)
    refine ⟨loaded, l, hrun, ?_⟩
    rw [hmapped]
    exact List.mem_append_left _ (List.mem_reverse.mpr hmem)

end Safe

end QuackOS.Elf
