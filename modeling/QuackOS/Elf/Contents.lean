import QuackOS.Elf.Image
import QuackOS.Elf.Safety

/-!
# What a loaded program reads

* `Holds` — the table shows the pages of an image, each on a frame with its bytes;
* `mapPage_holds`, `patchPage_holds` — a page that is mapped is a page laid, and a page of the TLS image
  is a patch;
* `loadElfBytes_holds` — **a load that succeeds leaves the program's image**;
* `load_image` — when a tidy program reads the bytes of its segments;
* `shared_page_loses_byte` — a program that is not.
-/

namespace QuackOS.Elf

open Mm Fallible

/-- The table shows the pages of the image, on frames with their bytes. -/
structure Holds (l : Loader) (img : Image) : Prop where
  clean : Clean l.pt l.ph
  page : ∀ v, (shown l.pt l.ph v = none ∧ img (v % 2 ^ 36) = none) ∨
    ∃ w b, shown l.pt l.ph v = some w ∧ img (v % 2 ^ 36) = some b ∧
      ∀ j < 4096, l.ph.byte (Pte.ppn w) j = b j

/-- The image that a table shows. -/
def imageOf (pt : PageTable) (ph : Phys) : Image := fun k =>
  (shown pt ph k).map fun w j => ph.byte (Pte.ppn w) j

theorem shown_mod (pt : PageTable) (ph : Phys) (v : ℕ) : shown pt ph (v % 2 ^ 36) = shown pt ph v := by
  rw [shown, shown, pte_mod pt ph v]

theorem holds_imageOf {pt : PageTable} {ph : Phys} (h : Clean pt ph) (mapped : List ℕ) :
    Holds ⟨pt, ph, mapped⟩ (imageOf pt ph) := by
  refine ⟨h, fun v => ?_⟩
  rw [imageOf, shown_mod]
  cases hs : shown pt ph v with
  | none => exact Or.inl ⟨rfl, rfl⟩
  | some w => exact Or.inr ⟨w, _, rfl, rfl, fun _ _ => rfl⟩

/-! ## A page -/

/-- A way to fill pages, and what it makes of a blank frame. -/
structure Lays (fill : ℕ → ℕ → Phys → Option Phys) (content : ℕ → ℕ → BitVec 8) : Prop where
  eq : ∀ f va ph ph', fill f va ph = some ph' → ∃ ws, ph' = ph.fill f ws
  byte : ∀ f va ph ph', (∀ j, ph.byte f j = 0) → fill f va ph = some ph' →
    ∀ j < 4096, ph'.byte f j = content va j

theorem byte_of_blank {ph : Phys} {f : ℕ} (h : ph.page f = fun _ => 0#64) (j : ℕ) : ph.byte f j = 0 := by
  rw [Phys.byte, h, Bytes.byte]
  exact BitVec.extractLsb'_zero

theorem lays_zeroPage : Lays zeroPage fun _ _ => 0 where
  eq _ _ _ _ h := ⟨_, (Option.some.inj h).symm⟩
  byte f va ph ph' _ h j _ := by
    obtain rfl := Option.some.inj h
    exact byte_of_blank Phys.fill_page_self j

theorem lays_segment (s : Segment) (elfBytes : List (BitVec 8)) :
    Lays (fillSegment s elfBytes) (segmentByte s elfBytes) where
  eq _ _ _ _ h := (fillSegment_spec h).1
  byte f va ph ph' hblank h j hj := by
    rw [(fillSegment_spec h).2 j hj, hblank j]
    rfl

section Steps

variable {l : Loader} {img : Image} {oom : String} {flags : BitVec 16}
  {fill : ℕ → ℕ → Phys → Option Phys} {content : ℕ → ℕ → BitVec 8} {elfBytes : List (BitVec 8)}
  {va : ℕ}

theorem shift_key (va : ℕ) : (va >>> 12) % 2 ^ 36 = pageKey va := by
  rw [Nat.shiftRight_eq_div_pow, pageKey]

/-- **A page that is mapped is a page laid.** -/
theorem mapPage_holds (hl : Holds l img) (hfill : Lays fill content) (va : ℕ) :
    Whenever (mapPage oom flags fill va) l fun _ l' => Holds l' (img.put va (content va)) := by
  rintro ⟨⟩ l' hrun
  unfold mapPage at hrun
  rcases allocPage_cases hl.clean.wf.ok with ⟨-, ha⟩ | ⟨f, rest, hfree, ha⟩
  · rw [ha] at hrun
    cases hrun
  rw [ha] at hrun
  obtain ⟨ph₁, hph₁, hrun⟩ := Option.bind_eq_some_iff.mp hrun
  obtain ⟨⟨pt', ph'⟩, hm, hrun⟩ := Option.bind_eq_some_iff.mp hrun
  cases hrun
  have hblank : ∀ j, (l.ph.pop f rest).byte f j = 0 := byte_of_blank Phys.pop_page_self
  have hbytes := hfill.byte f va _ _ hblank hph₁
  obtain ⟨ws, rfl⟩ := hfill.eq f va _ _ hph₁
  have hplaced : Placed l.pt l.ph (va >>> 12) f (Bmm.toPteFlags flags) ws pt' ph' :=
    hl.clean.place hfree hm
  refine ⟨hplaced.clean, fun v => ?_⟩
  rw [hplaced.shown_eq, shift_key, Image.put, Function.update_apply]
  by_cases hv : v % 2 ^ 36 = pageKey va
  · rw [if_pos hv, if_pos hv]
    refine Or.inr ⟨_, _, rfl, rfl, fun j hj => ?_⟩
    rw [Pte.ppn_new hplaced.lt, ← hbytes j hj]
    exact Phys.byte_congr (hplaced.page.trans Phys.fill_page_self.symm)
  · rw [if_neg hv, if_neg hv]
    refine (hl.page v).imp id ?_
    rintro ⟨w, b, hs, hi, hb⟩
    refine ⟨w, b, hs, hi, fun j hj => ?_⟩
    rw [← hb j hj]
    exact Phys.byte_congr (hplaced.kept v w hs)

theorem mapPages_holds (hl : Holds l img) (hfill : Lays fill content) (vas : List ℕ) :
    Whenever (mapPages oom flags fill vas) l fun _ l' => Holds l' (putPages content vas img) := by
  induction vas generalizing l img with
  | nil => exact Whenever.pure hl
  | cons va vas ih => exact (mapPage_holds hl hfill va).bind fun _ l₁ h₁ => ih h₁

/-- Phase 3. -/
theorem mapSegments_holds (hl : Holds l img) (ss : List Segment) (lastEnd : ℕ) :
    Whenever (mapSegments elfBytes ss lastEnd) l fun stop l' =>
      stop = lastStop ss lastEnd ∧ Holds l' (putSegments elfBytes ss lastEnd img) := by
  induction ss generalizing l img lastEnd with
  | nil => exact Whenever.pure ⟨rfl, hl⟩
  | cons s ss ih =>
    refine (mapPages_holds hl lays_zeroPage (gapPages lastEnd s)).bind fun _ l₁ h₁ => ?_
    refine (mapPages_holds h₁ (lays_segment s elfBytes) (pagesBetween s.start s.stop)).bind
      fun _ l₂ h₂ => ?_
    exact ih h₂ s.stop

/-- **A page of the TLS image is a patch.** -/
theorem patchPage_holds {vaddr copyLen offset : ℕ} (hl : Holds l img)
    (hfile : offset + copyLen ≤ elfBytes.length) (va : ℕ) :
    Whenever (patchPage elfBytes vaddr copyLen offset va) l fun _ l' =>
      Holds l' (img.patch va (imageByte elfBytes vaddr copyLen offset va)) := by
  rintro ⟨⟩ l' hrun
  rw [patchPage_eq] at hrun
  have hkey := hl.page (va >>> 12)
  rw [shift_key] at hkey
  cases hs : shown l.pt l.ph (va >>> 12) with
  | none =>
    rw [hs] at hrun hkey
    cases hrun
    rcases hkey with ⟨-, hnone⟩ | ⟨w, b, hw, -⟩
    · rw [Image.patch, hnone, Option.map_none, ← hnone, Function.update_eq_self]
      exact hl
    · cases hw
  | some w =>
    rw [hs] at hrun hkey
    obtain ⟨ph', hph', hrun⟩ := Option.map_eq_some_iff.mp hrun
    cases hrun
    obtain ⟨b, himg, hb⟩ : ∃ b, img (pageKey va) = some b ∧
        ∀ j < 4096, l.ph.byte (Pte.ppn w) j = b j := by
      rcases hkey with ⟨hnone, -⟩ | ⟨w', b, hw, hi, hb⟩
      · cases hnone
      · cases hw
        exact ⟨b, hi, hb⟩
    have hout := hl.clean.outside hs
    obtain ⟨⟨ws, rfl⟩, hbytes⟩ := copySegmentData_spec hph'
    refine ⟨hl.clean.fill hout, fun v => ?_⟩
    dsimp only
    rw [shown_congr hout.fill_agrees, Image.patch, Function.update_apply]
    by_cases hv : v % 2 ^ 36 = pageKey va
    · -- the page that is patched
      have hsv : shown l.pt l.ph v = some w := by
        rw [← shown_mod, hv, ← shift_key, shown_mod, hs]
      rw [if_pos hv, himg, hsv]
      refine Or.inr ⟨w, _, rfl, rfl, fun j hj => ?_⟩
      rw [hbytes j hj, imageByte, hb j hj]
      refine if_congr ⟨fun h => ⟨h.1, h.2.1⟩, fun h => ⟨h.1, h.2, ?_⟩⟩ rfl rfl
      omega
    · rw [if_neg hv]
      refine (hl.page v).imp id ?_
      rintro ⟨w', b', hs', hi', hb'⟩
      refine ⟨w', b', hs', hi', fun j hj => ?_⟩
      rw [← hb' j hj]
      refine Phys.byte_congr (Phys.fill_page_of_ne fun heq => hv ?_)
      rw [← shift_key]
      exact hl.clean.inj v (va >>> 12) w' w hs' hs heq

theorem patchPages_holds {vaddr copyLen offset : ℕ} (hl : Holds l img)
    (hfile : offset + copyLen ≤ elfBytes.length) (vas : List ℕ) :
    Whenever (patchPages elfBytes vaddr copyLen offset vas) l fun _ l' =>
      Holds l' (patchAll elfBytes vaddr copyLen offset vas img) := by
  induction vas generalizing l img with
  | nil => exact Whenever.pure hl
  | cons va vas ih => exact (patchPage_holds hl hfile va).bind fun _ l₁ h₁ => ih h₁

theorem loadTlsHeader_holds (hl : Holds l img) (h : ProgramHeader) (r : ℕ × ℕ) :
    Whenever (loadTlsHeader elfBytes h r.1 r.2) l fun r' l' =>
      r' = tlsHeader r h ∧ Holds l' (patchImage elfBytes img h) := by
  unfold loadTlsHeader
  by_cases himage : h.IsImage
  case neg =>
    rw [if_pos (ProgramHeader.not_isImage.mp himage), tlsHeader, if_neg himage, patchImage, if_neg fun h => himage h.1]
    exact Whenever.pure ⟨rfl, hl⟩
  rw [if_neg fun hskip => ProgramHeader.not_isImage.mpr hskip himage]
  have hplan := tlsHeader_of_image himage r
  have hadd : Whenever (Fallible.lift (add h.virtualAddr.toNat h.fileSize.toNat) : Load ℕ) l
      fun e l' => e = h.virtualAddr.toNat + h.fileSize.toNat ∧ Holds l' img :=
    Whenever.lift fun e he => ⟨add_eq_some he, hl⟩
  refine hadd.bind fun e l₁ h₁ => ?_
  obtain ⟨rfl, h₁⟩ := h₁
  dsimp only
  rw [← hplan]
  by_cases hne : tlsCopyLen elfBytes h = 0
  · rw [if_pos hne, patchImage, if_neg fun h => h.2 hne]
    exact Whenever.pure ⟨rfl, h₁⟩
  · rw [if_neg hne, patchImage, if_pos ⟨himage, hne⟩]
    have hcopyEnd : Whenever (Fallible.lift (add h.virtualAddr.toNat (tlsCopyLen elfBytes h)) : Load ℕ)
        l₁ fun e l' => e = h.virtualAddr.toNat + tlsCopyLen elfBytes h ∧ Holds l' img :=
      Whenever.lift fun e he => ⟨add_eq_some he, h₁⟩
    refine hcopyEnd.bind fun e l₂ h₂ => ?_
    obtain ⟨rfl, h₂⟩ := h₂
    have hstop : Whenever (Fallible.lift (pageAlignUp (h.virtualAddr.toNat + tlsCopyLen elfBytes h)) :
        Load ℕ) l₂ fun stop l' =>
          stop = roundUp (h.virtualAddr.toNat + tlsCopyLen elfBytes h) ∧ Holds l' img :=
      Whenever.lift fun e he => ⟨pageAlignUp_eq_some he, h₂⟩
    refine hstop.bind fun stop l₃ h₃ => ?_
    obtain ⟨hstop, h₃⟩ := h₃
    rw [hstop]
    exact (patchPages_holds h₃ (tlsCopyLen_le h hne) _).bind fun _ l₄ h₄ => Whenever.pure ⟨rfl, h₄⟩

/-- Phase 3.5. -/
theorem loadTls_holds (hl : Holds l img) (headers : List ProgramHeader) (r : ℕ × ℕ) :
    Whenever (loadTls elfBytes headers r.1 r.2) l fun r' l' =>
      r' = tlsPlan headers r ∧ Holds l' (headers.foldl (patchImage elfBytes) img) := by
  induction headers generalizing l img r with
  | nil => exact Whenever.pure ⟨rfl, hl⟩
  | cons h headers ih =>
    refine (loadTlsHeader_holds hl h r).bind fun r₁ l₁ h₁ => ?_
    obtain ⟨rfl, h₁⟩ := h₁
    exact ih h₁ (tlsHeader r h)

/-- Phase 4. -/
theorem mapBrk_holds {dataEnd tlsMemsz lastEnd : ℕ} (hl : Holds l img)
    (hle : lastEnd ≤ roundUp dataEnd) : Whenever (mapBrk dataEnd tlsMemsz lastEnd) l fun _ l' =>
      Holds l' (putPages (fun _ _ => 0) (brkArea dataEnd tlsMemsz) img) := by
  intro a l' hrun
  by_cases hfit : BrkFits dataEnd tlsMemsz
  · rw [mapBrk_eq hle hfit] at hrun
    exact mapPages_holds hl lays_zeroPage _ a l' hrun
  · rw [mapBrk_of_not_fits hle hfit] at hrun
    cases hrun

end Steps

/-! ## The load -/

section Load

variable {parse : List (BitVec 8) → Option ElfFile} {elfBytes : List (BitVec 8)} {elf : ElfFile}
  {pt : PageTable} {ph : Phys} {l : Loader} {img : Image} {r : LoadedElf}

/-- **A load that succeeds leaves the program's image**, over the pages that the table had. -/
theorem loadElfBytes_holds (hparse : parse elfBytes = some elf) (hl : Holds l img) :
    Whenever (loadElfBytes parse elfBytes) l fun _ l' => Holds l' (elf.image elfBytes img) := by
  have hcollect : Whenever (Fallible.lift (collect elf.programIter) : Load Collected) l
      fun c l' => c = plan elf.programIter ∧ Holds l' img := by
    refine Whenever.lift fun c hc => ⟨?_, hl⟩
    by_cases hfit : ∀ h ∈ elf.programIter, h.Fits
    · rw [collect_of_fits hfit] at hc
      exact (Option.some.inj hc).symm
    · rw [collect_of_not_fits hfit] at hc
      cases hc
  unfold loadElfBytes
  rw [hparse]
  refine hcollect.bind fun c l₁ h₁ => ?_
  obtain ⟨rfl, h₁⟩ := h₁
  have hsegs : Whenever (mapSegments elfBytes elf.segments 0) l₁ fun stop l' =>
      stop = lastStop elf.segments 0 ∧ Holds l' (putSegments elfBytes elf.segments 0 img) :=
    mapSegments_holds h₁ elf.segments 0
  refine hsegs.bind fun stop l₂ h₂ => ?_
  obtain ⟨rfl, h₂⟩ := h₂
  have htls : Whenever (loadTls elfBytes elf.programIter (plan elf.programIter).dataEnd
      (plan elf.programIter).tlsMemsz) l₂ fun r' l' => r' = elf.ends ∧
        Holds l' (elf.programIter.foldl (patchImage elfBytes)
          (putSegments elfBytes elf.segments 0 img)) :=
    loadTls_holds h₂ elf.programIter ((plan elf.programIter).dataEnd, (plan elf.programIter).tlsMemsz)
  refine htls.bind fun r' l₃ h₃ => ?_
  obtain ⟨dataEnd, tlsMemsz⟩ := r'
  obtain ⟨hends, h₃⟩ := h₃
  have hlast := lastStop_le_ends hends
  rw [ElfFile.image, ← hends]
  dsimp only
  refine (mapBrk_holds h₃ hlast).bind fun _ l₄ h₄ => ?_
  have hkeep : ∀ {o : Option ℕ} {l' : Loader} {img' : Image}, Holds l' img' →
      Whenever (Fallible.lift o : Load ℕ) l' fun _ l'' => Holds l'' img' :=
    fun h' => Whenever.lift fun _ _ => h'
  exact (hkeep h₄).bind fun _ l₅ h₅ => (hkeep h₅).bind fun _ l₆ h₆ => Whenever.pure h₆

/-- A page of the image is read through the table. -/
theorem Holds.translate (h : Holds l img) {a : ℕ} {b : ℕ → BitVec 8} (ha : a < 2 ^ 48)
    (hb : img (a / 4096) = some b) : ∃ t, Mm.translate l.ph l.pt.rootPpn a = some t ∧
      l.ph.byte (t.pa / 4096) (t.pa % 4096) = b (a % 4096) := by
  have hkey : a / 4096 % 2 ^ 36 = a / 4096 := Nat.mod_eq_of_lt (by omega)
  have hpage := h.page (a / 4096)
  rw [hkey, hb] at hpage
  obtain ⟨w, b', hs, hi, hbytes⟩ : ∃ w b', shown l.pt l.ph (a / 4096) = some w ∧ some b = some b' ∧
      ∀ j < 4096, l.ph.byte (Pte.ppn w) j = b' j := by
    rcases hpage with ⟨-, hnone⟩ | hpage
    · cases hnone
    · exact hpage
  cases hi
  obtain ⟨f, fl, rfl, hf, -⟩ := h.clean.page _ w hs
  refine ⟨_, by rw [Mm.translate, if_pos ha, leaf_of_shown hs, Option.map_some], ?_⟩
  rw [Pte.ppn_new hf] at hbytes
  have hpa : Pte.ppn (Pte.new f fl) * 4096 / 2 ^ leafShift 3 * 2 ^ leafShift 3 + a % 2 ^ leafShift 3 =
      f * 4096 + a % 4096 := by
    rw [Pte.ppn_new hf, leafShift]
    omega
  dsimp only
  rw [hpa, show (f * 4096 + a % 4096) / 4096 = f by omega,
    show (f * 4096 + a % 4096) % 4096 = a % 4096 by omega]
  exact hbytes _ (Nat.mod_lt a (by decide))

/-- Every byte of every segment reads as the file has it, or as zero behind the bytes of the file; those
of the file only where no TLS image is over them. -/
def ImageRight (elf : ElfFile) (elfBytes : List (BitVec 8)) (l : Loader) : Prop :=
  ∀ h ∈ elf.loads, ∀ i < h.memSize.toNat,
    (i < h.fileSize.toNat → ¬ InTls elf elfBytes (h.virtualAddr.toNat + i)) →
    ∃ t, translate l.ph l.pt.rootPpn (h.virtualAddr.toNat + i) = some t ∧
      l.ph.byte (t.pa / 4096) (t.pa % 4096) = expectedByte elfBytes h i

/-- What is lost of the file is zero, or under a TLS image. -/
def LossHarmless (elf : ElfFile) (elfBytes : List (BitVec 8)) : Prop :=
  ∀ h ∈ elf.loads, ∀ i < h.fileSize.toNat, Lost elf h i →
    InTls elf elfBytes (h.virtualAddr.toNat + i) ∨ elfBytes.getD (h.offset.toNat + i) 0 = 0

/-- **What a loaded program reads**: if it is tidy, the bytes of its segments just when the lost ones are
zero; in any case, at an address whose page was laid, the byte of the page that was laid there last. -/
theorem load_image (hclean : Clean pt ph) (hparse : parse elfBytes = some elf)
    (hfile : elf.FileOk elfBytes) (hapart : elf.Apart)
    (hrun : loadElfBytes parse elfBytes ⟨pt, ph, []⟩ = some (.ok r, l)) :
    (Tidy elf elfBytes → (ImageRight elf elfBytes l ↔ LossHarmless elf elfBytes)) ∧
    ∀ a < 2 ^ 48, ∀ b, elf.image elfBytes (imageOf pt ph) (a / 4096) = some b →
      ∃ t, translate l.ph l.pt.rootPpn a = some t ∧
        l.ph.byte (t.pa / 4096) (t.pa % 4096) = b (a % 4096) := by
  have hholds := loadElfBytes_holds hparse (holds_imageOf hclean []) r l hrun
  refine ⟨fun htidy => ?_, fun a ha b hb => hholds.translate ha hb⟩
  have hreads : ∀ h ∈ elf.loads, ∀ i < h.memSize.toNat,
      (i < h.fileSize.toNat → ¬ InTls elf elfBytes (h.virtualAddr.toNat + i)) →
      ∀ A B, elf.segments = A ++ segmentOf h :: B →
        ∃ t, translate l.ph l.pt.rootPpn (h.virtualAddr.toNat + i) = some t ∧
          l.ph.byte (t.pa / 4096) (t.pa % 4096) =
            if pageAlignDown (h.virtualAddr.toNat + i) ∈ segmentPages B (segmentOf h).stop then 0
            else expectedByte elfBytes h i := by
    intro h hh i hi hout A B hsplit
    obtain ⟨ha, hbyte⟩ :=
      image_byte htidy hfile hapart (imageOf pt ph) hh hi hout hsplit rfl
    obtain ⟨b, hb, hbi⟩ := Option.map_eq_some_iff.mp hbyte
    obtain ⟨t, ht, hread⟩ := hholds.translate ha hb
    exact ⟨t, ht, hread.trans hbi⟩
  constructor
  · rintro hright h hh i hi ⟨A, B, hsplit, hpage⟩
    by_cases hin : InTls elf elfBytes (h.virtualAddr.toNat + i)
    · exact Or.inl hin
    have hmem : i < h.memSize.toNat := hi.trans_le (hfile h hh).1
    obtain ⟨t, ht, hzero⟩ := hreads h hh i hmem (fun _ => hin) A B hsplit
    obtain ⟨t', ht', hread⟩ := hright h hh i hmem fun _ => hin
    obtain rfl : t = t' := Option.some.inj (ht.symm.trans ht')
    rw [if_pos hpage] at hzero
    rw [hzero, expectedByte, if_pos hi] at hread
    exact Or.inr hread.symm
  · intro hloss h hh i hi hout
    obtain ⟨A, B, hsplit⟩ := List.append_of_mem (htidy.mem_segments hh (by omega))
    obtain ⟨t, ht, hread⟩ := hreads h hh i hi hout A B hsplit
    refine ⟨t, ht, ?_⟩
    rw [hread]
    split
    case isFalse => rfl
    case isTrue hpage =>
      unfold expectedByte
      split
      case isFalse => rfl
      case isTrue hfi =>
        rcases hloss h hh i hfi ⟨A, B, hsplit, hpage⟩ with hin | hzero
        · exact absurd hin (hout hfi)
        · exact hzero.symm

end Load

/-- A machine with forty free frames. -/
def fortyFrames : Phys where
  page := fun _ _ => 0#64
  free := List.range' 0x50000 40
  trackBase := 0x50000
  track := fun i => decide (40 ≤ i)
  taken := []
  given := []

theorem fortyFrames_ok : fortyFrames.Ok := by
  refine ⟨List.nodup_range', by decide, by decide, fun f hf => ?_⟩
  obtain ⟨-, hle, -⟩ := Phys.tracked_iff.mp hf
  simp only [fortyFrames, decide_eq_false_iff_not, List.mem_range'_1] at *
  omega

/-- A program of at most three pages is loaded there. -/
theorem loaded_fortyFrames {elf : ElfFile} {data : List (BitVec 8)}
    (hlen : (elf.encode data).length < 2 ^ 64) (hpages : elf.pages.length ≤ 3)
    (hsums : Sums elf (elf.encode data)) : ∃ pt ph r l,
      createKernelMappedPageTable fortyFrames = some (.ok pt, ph) ∧ Clean pt ph ∧
        loadElfBytes (elf.parser data) (elf.encode data) ⟨pt, ph, []⟩ = some (.ok r, l) := by
  obtain ⟨pt, ph, hc, hfree⟩ := exists_created fortyFrames 35 (by decide)
  obtain ⟨root, l1, tr, lo, mid, rest, h⟩ := create_spec fortyFrames_ok hc
  have hclean := (h.clean fortyFrames_ok).1
  have hready : (⟨pt, ph, []⟩ : Loader).Ready (0 + elf.pages.length) := by
    refine ⟨hclean, ?_⟩
    rw [hfree]
    omega
  obtain ⟨r, l, hrun, -⟩ := (loadElfBytes_exactly (parser_encode elf data) hlen hready).ends hsums
  exact ⟨pt, ph, r, l, hc, hclean, hrun⟩

/-! ## Two segments on one page -/

/-- A segment of one byte, which is byte `offset` of the file. -/
def oneByte (virtualAddr offset : Word) : ProgramHeader :=
  { type := .load, virtualAddr, memSize := 1, fileSize := 1, offset, isRead := true, isExecute := false }

/-- The two bytes behind the program headers at `0x1000`, each as a segment of its own. -/
def twoSegments : ElfFile where
  entryPoint := 0x1000
  phOffset := 64
  phEntrySize := 56
  phCount := 3
  programIter := [oneByte 0x1000 232, oneByte 0x1001 233,
    { type := .tls, virtualAddr := 0, memSize := 16, fileSize := 0, offset := 0, isRead := true,
      isExecute := false }]

/-- Their file. -/
def twoBytes : List (BitVec 8) := twoSegments.encode [0x41, 0x42]

theorem twoSegments_no_image : ∀ h ∈ twoSegments.programIter, ¬ h.IsImage := by decide

theorem twoSegments_apart : twoSegments.Apart := by
  have hends : twoSegments.loads.Pairwise fun h h' => h.vend ≤ h'.virtualAddr.toNat := by decide
  exact hends.imp fun hle a hcover hcover' => absurd (hcover.2.trans_le hle) hcover'.1.not_gt

theorem twoSegments_segments :
    twoSegments.segments = [segmentOf (oneByte 0x1000 232), segmentOf (oneByte 0x1001 233)] := by
  decide +kernel

theorem twoSegments_tidy (elfBytes : List (BitVec 8)) : Tidy twoSegments elfBytes := by
  refine ⟨by decide, by decide, fun h hh himage => ?_, ?_⟩
  · exact absurd himage (twoSegments_no_image h hh)
  · rintro h - i - - ⟨t, ht, himage, -⟩
    exact twoSegments_no_image t ht himage

/-- The byte of the first segment is lost, that of the second is not. -/
theorem twoSegments_lost : Lost twoSegments (oneByte 0x1000 232) 0 ∧
    ¬ Lost twoSegments (oneByte 0x1001 233) 0 := by
  refine ⟨⟨[], [segmentOf (oneByte 0x1001 233)], twoSegments_segments, by decide⟩, ?_⟩
  rintro ⟨A, B, hsplit, hpage⟩
  rw [twoSegments_segments] at hsplit
  obtain rfl : B = [] := by
    rcases A with - | ⟨x, - | ⟨y, A⟩⟩
    · exact absurd (List.cons.inj hsplit).1 (by decide)
    · exact (List.cons.inj (List.cons.inj hsplit).2).2.symm
    · have hlen := congrArg List.length hsplit
      simp at hlen
  exact absurd hpage List.not_mem_nil

/-- **Two segments share a page harmlessly**, when the byte of the first one is zero. -/
theorem load_image_shared : ∃ pt ph r l,
    createKernelMappedPageTable fortyFrames = some (.ok pt, ph) ∧
      loadElfBytes (twoSegments.parser [0, 0x42]) (twoSegments.encode [0, 0x42]) ⟨pt, ph, []⟩ =
        some (.ok r, l) ∧
      Lost twoSegments (oneByte 0x1000 232) 0 ∧
      ImageRight twoSegments (twoSegments.encode [0, 0x42]) l := by
  obtain ⟨pt, ph, r, l, hc, hclean, hrun⟩ := @loaded_fortyFrames twoSegments [0, 0x42]
    (by decide +kernel) (by decide +kernel) (by decide +kernel)
  have hfile : twoSegments.FileOk (twoSegments.encode [0, 0x42]) ∧
      (twoSegments.encode [0, 0x42]).getD 232 0 = 0 := by decide +kernel
  have hloss : LossHarmless twoSegments (twoSegments.encode [0, 0x42]) := by
    intro h hh i hi hlost
    rw [show twoSegments.loads = [oneByte 0x1000 232, oneByte 0x1001 233] from rfl,
      List.mem_pair] at hh
    rcases hh with rfl | rfl
    · obtain rfl : i = 0 := Nat.lt_one_iff.mp hi
      exact Or.inr hfile.2
    · obtain rfl : i = 0 := Nat.lt_one_iff.mp hi
      exact absurd hlost twoSegments_lost.2
  have himage := load_image hclean (parser_encode _ _) hfile.1 twoSegments_apart hrun
  exact ⟨pt, ph, r, l, hc, hrun, twoSegments_lost.1, (himage.1 (twoSegments_tidy _)).mpr hloss⟩

/-- The page of the second segment is laid last, and its first byte is blank. -/
theorem twoSegments_image (base : Image) :
    ∃ b, twoSegments.image twoBytes base (0x1000 / 4096) = some b ∧ b (0x1000 % 4096) = 0 := by
  let second : Segment := ⟨0x1000, 0x2000, 1, 233, 0x1001, PTEFlags.U ||| PTEFlags.R ||| PTEFlags.W⟩
  have hsegs : twoSegments.segments = [segmentOf (oneByte 0x1000 232)] ++ [second] :=
    twoSegments_segments
  have hbrk : ∀ u ∈ brkArea twoSegments.ends.1 twoSegments.ends.2, pageKey u ≠ 0x1000 / 4096 := by
    decide
  have hlaid : ∀ img, putSegments twoBytes [second] 0x2000 img (0x1000 / 4096) =
      some (segmentByte second twoBytes 0x1000) := fun img =>
    putPages_of_mem (show 0x1000 ∈ pagesBetween second.start second.stop by decide) (by decide)
  have hbyte : (twoSegments.image twoBytes base (0x1000 / 4096)).map (· (0x1000 % 4096)) =
      some (segmentByte second twoBytes 0x1000 (0x1000 % 4096)) := by
    rw [ElfFile.image, putPages_of_not_mem hbrk,
      patchImages_outside (fun h hh himage => absurd himage (twoSegments_no_image h hh))
        (fun h hh himage => absurd himage (twoSegments_no_image h hh)),
      hsegs, putSegments_append, show lastStop [_] 0 = 0x2000 from rfl, hlaid, Option.map_some]
  obtain ⟨b, hb, hbi⟩ := Option.map_eq_some_iff.mp hbyte
  exact ⟨b, hb, hbi.trans (by decide)⟩

/-- **Of two segments that share a page, the first one's byte is lost.** -/
theorem shared_page_loses_byte : ∃ pt ph r l,
    createKernelMappedPageTable fortyFrames = some (.ok pt, ph) ∧
      loadElfBytes (twoSegments.parser [0x41, 0x42]) twoBytes ⟨pt, ph, []⟩ = some (.ok r, l) ∧
      twoSegments.FileOk twoBytes ∧ twoSegments.Apart ∧ ¬ ImageRight twoSegments twoBytes l := by
  obtain ⟨pt, ph, r, l, hc, hclean, hrun⟩ := @loaded_fortyFrames twoSegments [0x41, 0x42]
    (by decide +kernel) (by decide +kernel) (by decide +kernel)
  refine ⟨pt, ph, r, l, hc, hrun, by decide +kernel, twoSegments_apart, fun hright => ?_⟩
  have hholds : Holds l (twoSegments.image twoBytes (imageOf pt ph)) :=
    loadElfBytes_holds (parser_encode _ _) (holds_imageOf hclean []) r l hrun
  obtain ⟨b, hb, hzero⟩ := twoSegments_image (imageOf pt ph)
  obtain ⟨t, ht, hread⟩ := hholds.translate (show 0x1000 < 2 ^ 48 by decide) hb
  have hmem : oneByte 0x1000 232 ∈ twoSegments.loads :=
    List.mem_filter.mpr ⟨List.mem_cons_self .., by decide⟩
  obtain ⟨t', ht', hread'⟩ := hright _ hmem 0 (by decide)
    (fun _ ⟨h, hh, himage, _⟩ => twoSegments_no_image h hh himage)
  obtain rfl : t = t' := Option.some.inj (ht.symm.trans ht')
  -- the file has 0x41 there
  have hfile : expectedByte twoBytes (oneByte 0x1000 232) 0 = 0x41 := by decide +kernel
  rw [hread, hfile, hzero] at hread'
  cases hread'

end QuackOS.Elf
