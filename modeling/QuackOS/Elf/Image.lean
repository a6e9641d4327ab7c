import QuackOS.Elf.Plan

/-!
# The image a program should have

What the loader lays down, as a map from page numbers to bytes: a page that is laid at a number
replaces the one that was there, and a patch changes some bytes of the page that is there.

* `Image.put`, `Image.patch` — the two steps; `putPages_of_mem`, `putPages_of_not_mem` — the last page
  laid at a number counts;
* `ElfFile.image` — the phases of `load_elf_bytes`, as steps on images;
* `Tidy` — every page is laid, at a number of its own; `Lost` — a byte whose page is laid again;
* `image_byte` — **a lost byte is zero in the image, and every other one is the segment's**.
-/

namespace QuackOS.Elf

open Mm

/-- The bytes of the pages, by page number. -/
abbrev Image := ℕ → Option (ℕ → BitVec 8)

/-- The number of the page of an address, in the 48-bit address space. -/
def pageKey (va : ℕ) : ℕ := va / 4096 % 2 ^ 36

namespace Image

/-- A page is laid. -/
def put (img : Image) (va : ℕ) (b : ℕ → BitVec 8) : Image :=
  Function.update img (pageKey va) (some b)

/-- The bytes of a page are changed, if there is one. -/
def patch (img : Image) (va : ℕ) (g : (ℕ → BitVec 8) → ℕ → BitVec 8) : Image :=
  Function.update img (pageKey va) ((img (pageKey va)).map g)

end Image

/-- Pages are laid one after the other. -/
def putPages (content : ℕ → ℕ → BitVec 8) (vas : List ℕ) (img : Image) : Image :=
  vas.foldl (fun img va => img.put va (content va)) img

section Put

variable {content : ℕ → ℕ → BitVec 8} {vas : List ℕ} {img : Image} {k va : ℕ}

theorem putPages_of_not_mem (h : ∀ u ∈ vas, pageKey u ≠ k) : putPages content vas img k = img k := by
  induction vas generalizing img with
  | nil => rfl
  | cons u vas ih =>
    have hne : k ≠ pageKey u := (h u (List.mem_cons_self ..)).symm
    have hrest : putPages content vas (img.put u (content u)) k = img.put u (content u) k :=
      ih fun x hx => h x (List.mem_cons_of_mem u hx)
    exact hrest.trans (Function.update_of_ne hne ..)

theorem putPages_of_mem (hmem : va ∈ vas) (hinj : ∀ u ∈ vas, pageKey u = pageKey va → u = va) :
    putPages content vas img (pageKey va) = some (content va) := by
  induction vas generalizing img with
  | nil => cases hmem
  | cons u vas ih =>
    have hinj' : ∀ x ∈ vas, pageKey x = pageKey va → x = va :=
      fun x hx => hinj x (List.mem_cons_of_mem u hx)
    by_cases hlater : va ∈ vas
    · exact ih hlater hinj'
    · obtain rfl : va = u := by
        rcases List.mem_cons.mp hmem with h | h
        · exact h
        · exact absurd h hlater
      have hlast : putPages content vas (img.put va (content va)) (pageKey va) =
          img.put va (content va) (pageKey va) := by
        refine putPages_of_not_mem fun x hx heq => hlater ?_
        rwa [← hinj' x hx heq]
      exact hlast.trans (Function.update_self ..)

end Put

/-! ## The phases -/

/-- A byte of a page of a segment: past the bytes of the file, one of them, or in front. -/
def segmentByte (s : Segment) (elfBytes : List (BitVec 8)) (va j : ℕ) : BitVec 8 :=
  if s.vaddr + s.filesz ≤ va + j ∧ va + j < s.stop then 0
  else if s.vaddr ≤ va + j ∧ va + j < s.vaddr + s.filesz ∧
      s.offset + (min (va + 4096) (s.vaddr + s.filesz) - s.vaddr) ≤ elfBytes.length then
    elfBytes.getD (s.offset + (va + j - s.vaddr)) 0
  else 0

/-- Phase 3. -/
def putSegments (elfBytes : List (BitVec 8)) : List Segment → ℕ → Image → Image
  | [], _, img => img
  | s :: ss, lastEnd, img =>
    putSegments elfBytes ss s.stop
      (putPages (segmentByte s elfBytes) (pagesBetween s.start s.stop)
        (putPages (fun _ _ => 0) (gapPages lastEnd s) img))

/-- The bytes of a page under a TLS image. -/
def imageByte (elfBytes : List (BitVec 8)) (vaddr copyLen offset va : ℕ) (b : ℕ → BitVec 8) (j : ℕ) :
    BitVec 8 :=
  if vaddr ≤ va + j ∧ va + j < vaddr + copyLen then elfBytes.getD (offset + (va + j - vaddr)) 0 else b j

/-- The pages of a TLS image, one after the other. -/
def patchAll (elfBytes : List (BitVec 8)) (vaddr copyLen offset : ℕ) (vas : List ℕ) (img : Image) :
    Image :=
  vas.foldl (fun img va => img.patch va (imageByte elfBytes vaddr copyLen offset va)) img

/-- A program header in phase 3.5. -/
def patchImage (elfBytes : List (BitVec 8)) (img : Image) (h : ProgramHeader) : Image :=
  if h.IsImage ∧ tlsCopyLen elfBytes h ≠ 0 then
    patchAll elfBytes h.virtualAddr.toNat (tlsCopyLen elfBytes h) h.offset.toNat
      (pagesBetween (pageAlignDown h.virtualAddr.toNat)
        (roundUp (h.virtualAddr.toNat + tlsCopyLen elfBytes h))) img
  else img

/-- The image that a load leaves, over the pages that were there. -/
def ElfFile.image (elf : ElfFile) (elfBytes : List (BitVec 8)) (base : Image) : Image :=
  putPages (fun _ _ => 0) (brkArea elf.ends.1 elf.ends.2)
    (elf.programIter.foldl (patchImage elfBytes) (putSegments elfBytes elf.segments 0 base))

/-! ## What a program asks for -/

/-- Byte `i` of a segment, as the file has it. -/
def expectedByte (elfBytes : List (BitVec 8)) (h : ProgramHeader) (i : ℕ) : BitVec 8 :=
  if i < h.fileSize.toNat then elfBytes.getD (h.offset.toNat + i) 0 else 0

/-- The address is in a TLS image. -/
def InTls (elf : ElfFile) (elfBytes : List (BitVec 8)) (a : ℕ) : Prop :=
  ∃ h ∈ elf.programIter, h.IsImage ∧ h.virtualAddr.toNat ≤ a ∧
    a < h.virtualAddr.toNat + tlsCopyLen elfBytes h

/-- The `PT_LOAD` program headers. -/
def ElfFile.loads (elf : ElfFile) : List ProgramHeader := elf.programIter.filter (·.type = .load)

/-- The bytes of a segment in the file are no more than those in memory, and are in the file. -/
def ElfFile.FileOk (elf : ElfFile) (elfBytes : List (BitVec 8)) : Prop :=
  ∀ h ∈ elf.loads, h.fileSize.toNat ≤ h.memSize.toNat ∧
    h.offset.toNat + h.fileSize.toNat ≤ elfBytes.length

instance (elf : ElfFile) (elfBytes : List (BitVec 8)) : Decidable (elf.FileOk elfBytes) :=
  inferInstanceAs (Decidable (∀ _ ∈ _, _))

/-- The address is in the segment. -/
def ProgramHeader.Covers (h : ProgramHeader) (a : ℕ) : Prop := h.virtualAddr.toNat ≤ a ∧ a < h.vend

/-- No address is in two segments. -/
def ElfFile.Apart (elf : ElfFile) : Prop :=
  elf.loads.Pairwise fun h h' => ∀ a, h.Covers a → ¬ h'.Covers a

/-- The page of byte `i` of a segment is mapped again, for a later segment or the gap before it. -/
def Lost (elf : ElfFile) (h : ProgramHeader) (i : ℕ) : Prop :=
  ∃ A B, elf.segments = A ++ segmentOf h :: B ∧
    pageAlignDown (h.virtualAddr.toNat + i) ∈ segmentPages B (segmentOf h).stop

/-- Every byte of a segment is laid, and only pages of segments are laid over its page. -/
structure Tidy (elf : ElfFile) (elfBytes : List (BitVec 8)) : Prop where
  /-- No segment behind the eighth has bytes. -/
  few : ∀ h ∈ elf.loads.drop maxSegments, h.memSize.toNat = 0
  /-- All pages are in the 48-bit address space. -/
  low : roundUp elf.ends.1 + brkCount elf.ends.2 * 4096 ≤ 2 ^ 48
  /-- So are the TLS images, -/
  image_low : ∀ h ∈ elf.programIter, h.IsImage →
    h.virtualAddr.toNat + tlsCopyLen elfBytes h ≤ 2 ^ 48
  /-- and they keep to the bytes that come from the file. -/
  image_file : ∀ h ∈ elf.loads, ∀ i, h.fileSize.toNat ≤ i → i < h.memSize.toNat →
    ¬ InTls elf elfBytes (h.virtualAddr.toNat + i)

/-! ## The bytes of the image -/

section Bytes

variable {elf : ElfFile} {elfBytes : List (BitVec 8)} {h : ProgramHeader} {img : Image}
  {a i lastEnd n : ℕ} {s : Segment} {A B : List Segment} {content : ℕ → ℕ → BitVec 8} {vas : List ℕ}

theorem pageKey_of_lt (hlt : a < 2 ^ 48) : pageKey a = a / 4096 := by
  unfold pageKey
  omega

/-- Pages of the 48-bit address space with one number are one page. -/
theorem pageKey_inj {u v : ℕ} (hu : u < 2 ^ 48) (hv : v < 2 ^ 48) (hum : u % 4096 = 0)
    (hvm : v % 4096 = 0) (heq : pageKey u = pageKey v) : u = v := by
  rw [pageKey_of_lt hu, pageKey_of_lt hv] at heq
  omega

/-- Phase 1 keeps the first eight segments. -/
theorem plan_segs (headers : List ProgramHeader) : (plan headers).segs =
    ((headers.filter (·.type = .load)).take maxSegments).map segmentOf := by
  have hgen : ∀ (hs : List ProgramHeader) (c : Collected), c.segs.length ≤ maxSegments →
      (hs.foldl planHeader c).segs = c.segs ++
        ((hs.filter (·.type = .load)).take (maxSegments - c.segs.length)).map segmentOf := by
    intro hs
    induction hs with
    | nil =>
      intro c _
      rw [List.filter_nil, List.take_nil, List.map_nil, List.append_nil]
      rfl
    | cons h hs ih =>
      intro c hc
      rw [List.foldl_cons, planHeader]
      cases ht : h.type with
      | tls =>
        rw [List.filter_cons_of_neg (by simp [ht])]
        exact ih { c with tlsMemsz := h.memSize.toNat } hc
      | other =>
        rw [List.filter_cons_of_neg (by simp [ht])]
        exact ih c hc
      | load =>
        rw [List.filter_cons_of_pos (by simp [ht])]
        dsimp only
        split
        case isTrue hroom =>
          have hlen : (c.segs ++ [segmentOf h]).length = c.segs.length + 1 := by simp
          have hsub : maxSegments - c.segs.length = maxSegments - (c.segs.length + 1) + 1 := by omega
          rw [ih _ (by rw [hlen]; exact hroom), hlen, hsub, List.take_succ_cons, List.map_cons,
            List.append_assoc]
          rfl
        case isFalse hfull =>
          have hih := ih { c with dataEnd := max c.dataEnd h.vend } hc
          have hsub : maxSegments - c.segs.length = 0 := by omega
          rw [hsub, List.take_zero] at hih ⊢
          exact hih
  exact hgen headers _ (Nat.zero_le _)

/-- A segment with bytes is loaded. -/
theorem Tidy.mem_segments (ht : Tidy elf elfBytes) (hh : h ∈ elf.loads) (hpos : 0 < h.memSize.toNat) :
    segmentOf h ∈ elf.segments := by
  have hsplit : h ∈ elf.loads.take maxSegments ++ elf.loads.drop maxSegments := by
    rwa [List.take_append_drop]
  rw [ElfFile.segments, (sortSegments_perm _).mem_iff, plan_segs]
  rcases List.mem_append.mp hsplit with hin | hout
  · exact List.mem_map_of_mem hin
  · have := ht.few h hout
    omega

theorem putSegments_append (ss : List Segment) (lastEnd : ℕ) (img : Image) :
    putSegments elfBytes (A ++ ss) lastEnd img =
      putSegments elfBytes ss (lastStop A lastEnd) (putSegments elfBytes A lastEnd img) := by
  induction A generalizing lastEnd img with
  | nil => rfl
  | cons s A ih => exact ih s.stop _

/-- A byte of a page that is laid, or of the one that was there. -/
theorem putPages_byte (ha : a < 2 ^ 48) (hvas : ∀ u ∈ vas, u % 4096 = 0 ∧ u < 2 ^ 48) :
    (putPages content vas img (a / 4096)).map (· (a % 4096)) =
      if pageAlignDown a ∈ vas then some (content (pageAlignDown a) (a % 4096))
      else (img (a / 4096)).map (· (a % 4096)) := by
  have hdown : pageAlignDown a < 2 ^ 48 := (Nat.sub_le _ _).trans_lt ha
  have hkey : pageKey (pageAlignDown a) = a / 4096 := by
    rw [pageKey_of_lt hdown, pageAlignDown]
    omega
  have hinj : ∀ u ∈ vas, pageKey u = pageKey (pageAlignDown a) → u = pageAlignDown a :=
    fun u hu heq => pageKey_inj (hvas u hu).2 hdown (hvas u hu).1 (pageAlignDown_mod a) heq
  rw [← hkey]
  split
  case isTrue hmem => rw [putPages_of_mem hmem hinj, Option.map_some]
  case isFalse hno =>
    rw [putPages_of_not_mem fun u hu heq => hno ?_]
    rwa [← hinj u hu heq]

/-- The segment is made of whole pages, and ends at `n` at the latest. -/
structure Segment.Below (s : Segment) (n : ℕ) : Prop where
  start_mod : s.start % 4096 = 0
  stop_mod : s.stop % 4096 = 0
  start_le : s.start ≤ n
  stop_le : s.stop ≤ n

theorem Segment.Below.mono {m : ℕ} (hs : s.Below m) (hle : m ≤ n) : s.Below n :=
  ⟨hs.start_mod, hs.stop_mod, hs.start_le.trans hle, hs.stop_le.trans hle⟩

theorem Segment.Below.pages (hs : s.Below n) :
    ∀ u ∈ pagesBetween s.start s.stop, u % 4096 = 0 ∧ u < n := by
  intro u hu
  obtain ⟨hum, -, hlt⟩ := (mem_pagesBetween_iff hs.start_mod).mp hu
  exact ⟨hum, hlt.trans_le hs.stop_le⟩

theorem Segment.Below.gap (hs : s.Below n) (hlast : lastEnd % 4096 = 0) :
    ∀ u ∈ gapPages lastEnd s, u % 4096 = 0 ∧ u < n := by
  intro u hu
  unfold gapPages at hu
  split at hu
  · obtain ⟨hum, -, hlt⟩ := (mem_pagesBetween_iff hlast).mp hu
    exact ⟨hum, hlt.trans_le hs.start_le⟩
  · exact absurd hu List.not_mem_nil

/-- The loaded segments end before the area at `brk`. -/
theorem below_segments (hs : s ∈ elf.segments) : s.Below (roundUp elf.ends.1) := by
  obtain ⟨⟨h, -, -, rfl⟩, hle⟩ := ElfFile.mem_segments hs
  have hdown : pageAlignDown h.virtualAddr.toNat ≤ h.virtualAddr.toNat := Nat.sub_le _ _
  have hvend : h.virtualAddr.toNat ≤ roundUp h.vend := (Nat.le_add_right _ _).trans (le_roundUp _)
  exact ⟨pageAlignDown_mod _, roundUp_mod _, (hdown.trans hvend).trans hle, hle⟩

/-- The address is among the bytes that the segment has from the file. -/
def Segment.FromFile (s : Segment) (a : ℕ) : Prop := s.vaddr ≤ a ∧ a < s.vaddr + s.filesz

theorem segmentByte_of_not_fromFile (hout : ¬ s.FromFile a) :
    segmentByte s elfBytes (pageAlignDown a) (a % 4096) = 0 := by
  have hoff : pageAlignDown a + a % 4096 = a := Nat.sub_add_cancel (Nat.mod_le a 4096)
  unfold segmentByte
  rw [hoff]
  split
  · rfl
  · exact if_neg fun h => hout ⟨h.1, h.2.1⟩

/-- **Segments that have no byte of the file at an address lay zeros there**, if they lay its page. -/
theorem putSegments_byte (ha : a < 2 ^ 48) {ss : List Segment} (hlast : lastEnd % 4096 = 0)
    (hss : ∀ s ∈ ss, s.Below (2 ^ 48)) (hout : ∀ s ∈ ss, ¬ s.FromFile a) :
    (putSegments elfBytes ss lastEnd img (a / 4096)).map (· (a % 4096)) =
      if pageAlignDown a ∈ segmentPages ss lastEnd then some 0
      else (img (a / 4096)).map (· (a % 4096)) := by
  induction ss generalizing lastEnd img with
  | nil => exact (if_neg List.not_mem_nil).symm
  | cons s ss ih =>
    have hs := hss s (List.mem_cons_self ..)
    have hzero := @segmentByte_of_not_fromFile elfBytes a s (hout s (List.mem_cons_self ..))
    rw [putSegments, ih hs.stop_mod (fun t ht => hss t (List.mem_cons_of_mem s ht))
      (fun t ht => hout t (List.mem_cons_of_mem s ht)), putPages_byte ha hs.pages, hzero,
      putPages_byte ha (hs.gap hlast), segmentPages]
    simp only [List.mem_append]
    by_cases hgap : pageAlignDown a ∈ gapPages lastEnd s
    · simp [hgap]
    by_cases hseg : pageAlignDown a ∈ pagesBetween s.start s.stop
    · simp [hseg]
    · simp [hgap, hseg]

/-- Behind a segment, no other one has a byte of the file at its addresses. -/
theorem not_fromFile_of_apart (hapart : elf.Apart) (hfile : elf.FileOk elfBytes) (hh : h ∈ elf.loads)
    (hcover : h.Covers a) (hsplit : elf.segments = A ++ segmentOf h :: B) :
    ∀ t ∈ B, ¬ t.FromFile a := by
  intro t ht hfrom
  have htmem : t ∈ elf.segments := hsplit ▸ List.mem_append_right A (List.mem_cons_of_mem _ ht)
  obtain ⟨⟨h', hh', hload, rfl⟩, -⟩ := ElfFile.mem_segments htmem
  have hmem' : h' ∈ elf.loads := List.mem_filter.mpr ⟨hh', decide_eq_true hload⟩
  have hcovers : ∀ k ∈ elf.loads, (segmentOf k).FromFile a → k.Covers a := by
    intro k hk hfrom
    exact ⟨hfrom.1, hfrom.2.trans_le (Nat.add_le_add_left (hfile k hk).1 _)⟩
  by_cases heq : h = h'
  case neg =>
    have : Std.Symm fun k k' : ProgramHeader => ∀ a, k.Covers a → ¬ k'.Covers a :=
      ⟨fun _ _ hkk a hk hk' => hkk a hk' hk⟩
    exact hapart.forall hh hmem' heq a hcover (hcovers h' hmem' hfrom)
  -- the same segment twice
  subst heq
  have hpair : elf.segments.Pairwise fun s s' => ¬ (s.FromFile a ∧ s'.FromFile a) := by
    rw [ElfFile.segments, (sortSegments_perm _).pairwise_iff fun hss hs => hss hs.symm, plan_segs,
      List.pairwise_map]
    refine List.Pairwise.imp_of_mem (fun hk hk' hkk hfrom => ?_)
      (hapart.sublist (List.take_sublist maxSegments _))
    exact hkk a (hcovers _ (List.mem_of_mem_take hk) hfrom.1) (hcovers _ (List.mem_of_mem_take hk') hfrom.2)
  rw [hsplit] at hpair
  exact (List.pairwise_cons.mp (List.pairwise_append.mp hpair).2.1).1 _ ht ⟨hfrom, hfrom⟩

/-- What a patch leaves at an address that is not under the TLS image. -/
theorem patchAll_outside {vaddr copyLen offset : ℕ} {vas : List ℕ}
    (hvas : ∀ va ∈ vas, va % 4096 = 0 ∧ va < 2 ^ 48)
    (hout : ¬ (vaddr ≤ a ∧ a < vaddr + copyLen)) :
    (patchAll elfBytes vaddr copyLen offset vas img (a / 4096)).map (· (a % 4096)) =
      (img (a / 4096)).map (· (a % 4096)) := by
  induction vas generalizing img with
  | nil => rfl
  | cons va vas ih =>
    obtain ⟨hvm, hvlt⟩ := hvas va (List.mem_cons_self ..)
    refine (ih fun u hu => hvas u (List.mem_cons_of_mem va hu)).trans ?_
    dsimp only
    rw [Image.patch, pageKey_of_lt hvlt, Function.update_apply]
    split
    case isTrue hpage =>
      have hva : va + a % 4096 = a := by omega
      rw [← hpage, Option.map_map]
      refine congrFun (congrArg Option.map (funext fun b => ?_)) _
      exact if_neg (by rwa [hva])
    case isFalse => rfl

/-- A byte that no TLS image is over stays as phase 3 laid it. -/
theorem patchImages_outside {headers : List ProgramHeader}
    (hlow : ∀ h ∈ headers, h.IsImage → h.virtualAddr.toNat + tlsCopyLen elfBytes h ≤ 2 ^ 48)
    (hout : ∀ h ∈ headers, h.IsImage →
      ¬ (h.virtualAddr.toNat ≤ a ∧ a < h.virtualAddr.toNat + tlsCopyLen elfBytes h)) :
    (headers.foldl (patchImage elfBytes) img (a / 4096)).map (· (a % 4096)) =
      (img (a / 4096)).map (· (a % 4096)) := by
  induction headers generalizing img with
  | nil => rfl
  | cons h headers ih =>
    refine (ih (fun t ht => hlow t (List.mem_cons_of_mem h ht))
      fun t ht => hout t (List.mem_cons_of_mem h ht)).trans ?_
    unfold patchImage
    split
    case isTrue himage =>
      have hend := hlow h (List.mem_cons_self ..) himage.1
      have hup := roundUp_lt (h.virtualAddr.toNat + tlsCopyLen elfBytes h)
      have hum := roundUp_mod (h.virtualAddr.toNat + tlsCopyLen elfBytes h)
      refine patchAll_outside (fun va hva => ?_) (hout h (List.mem_cons_self ..) himage.1)
      obtain ⟨hvm, -, hlt⟩ := (mem_pagesBetween_iff (pageAlignDown_mod _)).mp hva
      exact ⟨hvm, by omega⟩
    case isFalse => rfl

/-- A byte of a segment, as its own page has it. -/
theorem segmentByte_segmentOf (hfit : h.offset.toNat + h.fileSize.toNat ≤ elfBytes.length)
    (hi : i < h.memSize.toNat) (ha : a = h.virtualAddr.toNat + i) :
    segmentByte (segmentOf h) elfBytes (pageAlignDown a) (a % 4096) = expectedByte elfBytes h i := by
  have hoff : pageAlignDown a + a % 4096 = a := Nat.sub_add_cancel (Nat.mod_le a 4096)
  have hstop : a < (segmentOf h).stop := by
    have hle := le_roundUp h.vend
    show a < roundUp h.vend
    unfold ProgramHeader.vend at hle ⊢
    omega
  have hvaddr : (segmentOf h).vaddr = h.virtualAddr.toNat := rfl
  have hfilesz : (segmentOf h).filesz = h.fileSize.toNat := rfl
  have hoffset : (segmentOf h).offset = h.offset.toNat := rfl
  rw [segmentByte, expectedByte, hoff, hvaddr, hfilesz, hoffset]
  by_cases hfi : i < h.fileSize.toNat
  · rw [if_neg (by omega), if_pos (by omega), if_pos hfi]
    congr 2
    omega
  · rw [if_pos (by omega), if_neg hfi]

/-- **A byte in the image of a tidy program**: zero if its page is laid again, else the segment's. -/
theorem image_byte (ht : Tidy elf elfBytes) (hfile : elf.FileOk elfBytes) (hapart : elf.Apart)
    (base : Image) (hh : h ∈ elf.loads) (hi : i < h.memSize.toNat)
    (hout : i < h.fileSize.toNat → ¬ InTls elf elfBytes (h.virtualAddr.toNat + i))
    (hsplit : elf.segments = A ++ segmentOf h :: B) (ha : a = h.virtualAddr.toNat + i) :
    a < 2 ^ 48 ∧ (elf.image elfBytes base (a / 4096)).map (· (a % 4096)) =
      some (if pageAlignDown a ∈ segmentPages B (segmentOf h).stop then 0
        else expectedByte elfBytes h i) := by
  have hlow := ht.low
  have hmem : ∀ t ∈ segmentOf h :: B, t ∈ elf.segments :=
    fun t htB => hsplit ▸ List.mem_append_right A htB
  have hborders := below_segments (hmem _ (List.mem_cons_self ..))
  have hbelow : ∀ t ∈ segmentOf h :: B, t.Below (2 ^ 48) :=
    fun t htB => (below_segments (hmem t htB)).mono (by omega)
  have hstop : a < (segmentOf h).stop := by
    have hle := le_roundUp h.vend
    show a < roundUp h.vend
    unfold ProgramHeader.vend at hle ⊢
    omega
  have hlt : a < roundUp elf.ends.1 := hstop.trans_le hborders.stop_le
  have ha48 : a < 2 ^ 48 := by omega
  have hpage : pageAlignDown a ∈ pagesBetween (segmentOf h).start (segmentOf h).stop := by
    refine (mem_pagesBetween_iff hborders.start_mod).mpr ⟨pageAlignDown_mod a, ?_, ?_⟩
    · show pageAlignDown h.virtualAddr.toNat ≤ pageAlignDown a
      unfold pageAlignDown
      omega
    · exact (Nat.sub_le _ _).trans_lt hstop
  -- the area at `brk` is behind all segments
  have hbrk : ∀ u ∈ brkArea elf.ends.1 elf.ends.2, pageKey u ≠ a / 4096 := by
    intro u hu
    have hmod := roundUp_mod elf.ends.1
    obtain ⟨-, hlo, hhi⟩ := (mem_pagesBetween_iff hmod).mp hu
    rw [pageKey_of_lt (by omega)]
    omega
  have htls : ∀ t ∈ elf.programIter, t.IsImage →
      ¬ (t.virtualAddr.toNat ≤ a ∧ a < t.virtualAddr.toNat + tlsCopyLen elfBytes t) := by
    intro t htmem htimage hin
    have hinTls : InTls elf elfBytes (h.virtualAddr.toNat + i) := ha ▸ ⟨t, htmem, htimage, hin⟩
    by_cases hfi : i < h.fileSize.toNat
    · exact hout hfi hinTls
    · exact ht.image_file h hh i (Nat.not_lt.mp hfi) hi hinTls
  have hcover : h.Covers a := by
    unfold ProgramHeader.Covers ProgramHeader.vend
    omega
  have hlater := not_fromFile_of_apart hapart hfile hh hcover hsplit
  have hown := segmentByte_segmentOf (hfile h hh).2 hi ha
  refine ⟨ha48, ?_⟩
  rw [ElfFile.image, putPages_of_not_mem hbrk, patchImages_outside ht.image_low htls, hsplit,
    putSegments_append, putSegments,
    putSegments_byte ha48 hborders.stop_mod (fun t htB => hbelow t (List.mem_cons_of_mem _ htB)) hlater,
    putPages_byte ha48 (hbelow _ (List.mem_cons_self ..)).pages, if_pos hpage, hown, apply_ite some]

end Bytes

end QuackOS.Elf
