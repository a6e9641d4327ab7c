import QuackOS.Lib.Radix
import Mathlib.Algebra.GroupWithZero.Nat
import Mathlib.Data.List.Nodup
import Mathlib.Data.List.Range

/-!
# Physical frames

The page allocator of `arch/aarch64/src/base/mm/mod.rs`: a last-in-first-out free list and a
bitmap that stops the machine when a tracked frame is freed or handed out twice.

* `Phys` — the contents of the frames and the allocator's state;
* `allocPage`, `freePage`, `freePageRange` — the allocator's entry points;
* `Phys.Ok` — the free list has no frame twice and agrees with the bitmap.  It holds after
  `boot` and every operation keeps it (`boot_ok`, `allocPage_cases`, `freePage_of_live`).
-/

namespace QuackOS.Mm

/-- A 64-bit word of memory, and a descriptor of a page table. -/
abbrev Word := BitVec 64

/-- An index into a table, or into the 512 words of a frame. -/
abbrev Index := Fin 512

instance Index.neZero : NeZero 512 := ⟨by decide⟩

/-- The number of frames `TRACK_BITMAP` covers. -/
def trackCapacity : ℕ := 2048 * 64

/-- Physical memory by page number, with the state of the allocator.  The list that the
source threads through the free pages is kept as a list; freeing a page still overwrites its
first word.  `taken` and `given` record what passed through the allocator, latest first. -/
structure Phys where
  page : ℕ → Index → Word
  /-- `FREE_LIST`, as page numbers. -/
  free : List ℕ
  /-- `TRACK_BASE`, as a page number; 0 while tracking is off. -/
  trackBase : ℕ
  /-- `TRACK_BITMAP`: set for an allocated frame. -/
  track : ℕ → Bool
  taken : List ℕ
  given : List ℕ

/-- Is the frame in the range of the tracking bitmap? -/
def Phys.tracked (ph : Phys) (f : ℕ) : Bool :=
  ph.trackBase != 0 && decide (ph.trackBase ≤ f) && decide (f - ph.trackBase < trackCapacity)

/-- `track_mark`; `none` is the halt on a double allocation or a double free. -/
def trackMark (ph : Phys) (f : ℕ) (allocated : Bool) : Option Phys :=
  if ph.tracked f then
    if ph.track (f - ph.trackBase) = allocated then none
    else some { ph with track := Function.update ph.track (f - ph.trackBase) allocated }
  else some ph

/-- `alloc_page`: pop the head of the free list and zero the page.  The outer `none` is a
halt, the inner one the source's `None`. -/
def allocPage (ph : Phys) : Option (Option ℕ × Phys) :=
  match ph.free with
  | [] => some (none, ph)
  | f :: rest =>
    (trackMark { ph with
      page := Function.update ph.page f fun _ => 0#64
      free := rest
      taken := f :: ph.taken } f true).map fun ph => (some f, ph)

/-- The link a freed page carries in its first word. -/
def nextLink : List ℕ → Word
  | [] => 0#64
  | f :: _ => BitVec.ofNat 64 f <<< 12

/-- `free_page`, on the page number of the address it is given; `none` is the halt on a
double free. -/
def freePage (ph : Phys) (f : ℕ) : Option Phys :=
  (trackMark ph f false).map fun ph =>
    { ph with
      page := Radix.write ph.page f 0 (nextLink ph.free)
      free := f :: ph.free
      given := f :: ph.given }

/-- `free_page_range`, from page `start` on, for `n` pages. -/
def freePageRange (ph : Phys) (start n : ℕ) : Option Phys :=
  (List.range' start n).foldlM freePage ph

/-- `init_page_tracking`: every frame counts as allocated until it is freed. -/
def initPageTracking (ph : Phys) (base : ℕ) : Phys :=
  { ph with trackBase := base, track := fun _ => true }

/-- `ram_end`, 1 MiB below the 512 MiB mark, as a page number. -/
def ramEnd : ℕ := 0x5ff00

/-- The allocator as `main` leaves it: the frames from `freeStart` to `ramEnd` are free. -/
def boot (freeStart : ℕ) : Option Phys :=
  freePageRange (initPageTracking
    { page := fun _ _ => 0#64, free := [], trackBase := 0, track := fun _ => false,
      taken := [], given := [] } freeStart) freeStart (ramEnd - freeStart)

/-! ## The allocator's invariant -/

/-- The frame is tracked and handed out. -/
def Phys.Live (ph : Phys) (f : ℕ) : Prop := ph.tracked f = true ∧ f ∉ ph.free

/-- No frame is on the free list twice, and the bitmap has a bit clear exactly for the frames
on the list. -/
structure Phys.Ok (ph : Phys) : Prop where
  nodup : ph.free.Nodup
  tracked : ∀ f ∈ ph.free, ph.tracked f = true
  base_lt : ph.trackBase < ramEnd
  clear : ∀ f, ph.tracked f = true → (ph.track (f - ph.trackBase) = false ↔ f ∈ ph.free)

/-- The part of the invariant that does not depend on where RAM is. -/
structure Phys.Marked (ph : Phys) : Prop where
  nodup : ph.free.Nodup
  tracked : ∀ f ∈ ph.free, ph.tracked f = true
  clear : ∀ f, ph.tracked f = true → (ph.track (f - ph.trackBase) = false ↔ f ∈ ph.free)

namespace Phys

variable {ph ph' : Phys} {f g : ℕ}

theorem Ok.marked (h : ph.Ok) : ph.Marked := ⟨h.nodup, h.tracked, h.clear⟩

theorem Marked.ok (h : ph.Marked) (hlt : ph.trackBase < ramEnd) : ph.Ok :=
  ⟨h.nodup, h.tracked, hlt, h.clear⟩

theorem tracked_iff : ph.tracked f = true ↔
    ph.trackBase ≠ 0 ∧ ph.trackBase ≤ f ∧ f - ph.trackBase < trackCapacity := by
  simp [tracked, and_assoc]

theorem tracked_congr (h : ph'.trackBase = ph.trackBase) : ph'.tracked f = ph.tracked f := by
  simp only [tracked, h]

/-- Tracked frames are frames of RAM: their number fits the address field of a descriptor. -/
theorem Ok.lt_of_tracked (h : ph.Ok) (hf : ph.tracked f = true) : f < 2 ^ 36 := by
  obtain ⟨-, hle, hlt⟩ := tracked_iff.mp hf
  have := h.base_lt
  simp only [trackCapacity, ramEnd] at *
  omega

theorem Ok.ne_zero_of_tracked (hf : ph.tracked f = true) : f ≠ 0 := by
  obtain ⟨h0, hle, -⟩ := tracked_iff.mp hf
  omega

theorem Ok.lt_of_live (h : ph.Ok) (hf : ph.Live f) : f < 2 ^ 36 := h.lt_of_tracked hf.1

/-- The state after the frame `f` was popped from a free list with tail `rest`. -/
def pop (ph : Phys) (f : ℕ) (rest : List ℕ) : Phys :=
  { ph with
    page := Function.update ph.page f fun _ => 0#64
    free := rest
    track := Function.update ph.track (f - ph.trackBase) true
    taken := f :: ph.taken }

/-- The state after the frame `f` was pushed onto the free list. -/
def push (ph : Phys) (f : ℕ) : Phys :=
  { ph with
    page := Radix.write ph.page f 0 (nextLink ph.free)
    free := f :: ph.free
    track := Function.update ph.track (f - ph.trackBase) false
    given := f :: ph.given }

@[simp] theorem pop_free {rest : List ℕ} : (ph.pop f rest).free = rest := rfl
@[simp] theorem pop_trackBase {rest : List ℕ} : (ph.pop f rest).trackBase = ph.trackBase := rfl
@[simp] theorem pop_taken {rest : List ℕ} : (ph.pop f rest).taken = f :: ph.taken := rfl
@[simp] theorem pop_given {rest : List ℕ} : (ph.pop f rest).given = ph.given := rfl
@[simp] theorem push_free : (ph.push f).free = f :: ph.free := rfl
@[simp] theorem push_trackBase : (ph.push f).trackBase = ph.trackBase := rfl
@[simp] theorem push_taken : (ph.push f).taken = ph.taken := rfl
@[simp] theorem push_given : (ph.push f).given = f :: ph.given := rfl

@[simp] theorem pop_page_self {rest : List ℕ} : (ph.pop f rest).page f = fun _ => 0#64 := by
  simp [pop]

theorem pop_page_of_ne {rest : List ℕ} (h : g ≠ f) : (ph.pop f rest).page g = ph.page g := by
  simp [pop, h]

theorem push_page_of_ne (h : g ≠ f) : (ph.push f).page g = ph.page g :=
  Radix.write_of_node_ne h

/-- Two tracked frames share no bit of the bitmap. -/
theorem sub_ne_sub (hf : ph.tracked f = true) (hg : ph.tracked g = true) (h : g ≠ f) :
    g - ph.trackBase ≠ f - ph.trackBase := by
  have := (tracked_iff.mp hf).2.1
  have := (tracked_iff.mp hg).2.1
  omega

theorem Marked.pop {rest : List ℕ} (h : ph.Marked) (hfree : ph.free = f :: rest) :
    (ph.pop f rest).Marked := by
  have hmem : f ∈ ph.free := by simp [hfree]
  have hnd : (f :: rest).Nodup := hfree ▸ h.nodup
  refine ⟨hnd.of_cons, fun g hg => ?_, fun g hg => ?_⟩
  · rw [tracked_congr pop_trackBase]
    exact h.tracked g (hfree ▸ List.mem_cons_of_mem f hg)
  rw [tracked_congr pop_trackBase] at hg
  show Function.update ph.track (f - ph.trackBase) true (g - ph.trackBase) = false ↔ g ∈ rest
  by_cases hgf : g = f
  · subst hgf
    simp [(List.nodup_cons.mp hnd).1]
  · rw [Function.update_of_ne (sub_ne_sub (h.tracked f hmem) hg hgf), h.clear g hg, hfree]
    simp [hgf]

theorem Ok.pop {rest : List ℕ} (h : ph.Ok) (hfree : ph.free = f :: rest) :
    (ph.pop f rest).Ok := (h.marked.pop hfree).ok h.base_lt

theorem Marked.push (h : ph.Marked) (hf : ph.Live f) : (ph.push f).Marked := by
  refine ⟨List.nodup_cons.mpr ⟨hf.2, h.nodup⟩, fun g hg => ?_, fun g hg => ?_⟩
  · rw [tracked_congr push_trackBase]
    rcases List.mem_cons.mp hg with rfl | hg
    · exact hf.1
    · exact h.tracked g hg
  rw [tracked_congr push_trackBase] at hg
  show Function.update ph.track (f - ph.trackBase) false (g - ph.trackBase) = false ↔
    g ∈ f :: ph.free
  by_cases hgf : g = f
  · subst hgf
    simp
  · rw [Function.update_of_ne (sub_ne_sub hf.1 hg hgf), h.clear g hg]
    simp [hgf]

theorem Ok.push (h : ph.Ok) (hf : ph.Live f) : (ph.push f).Ok := (h.marked.push hf).ok h.base_lt

theorem Live.pop {rest : List ℕ} (hfree : ph.free = f :: rest) (hg : ph.Live g) :
    (ph.pop f rest).Live g := by
  refine ⟨by rw [tracked_congr pop_trackBase]; exact hg.1, fun hmem => hg.2 ?_⟩
  rw [hfree]
  exact List.mem_cons_of_mem f hmem

theorem Live.pop_self {rest : List ℕ} (h : ph.Ok) (hfree : ph.free = f :: rest) :
    (ph.pop f rest).Live f := by
  have hnd : (f :: rest).Nodup := hfree ▸ h.nodup
  refine ⟨?_, (List.nodup_cons.mp hnd).1⟩
  rw [tracked_congr pop_trackBase]
  exact h.tracked f (by simp [hfree])

theorem Live.push (hg : ph.Live g) (h : g ≠ f) : (ph.push f).Live g := by
  refine ⟨by rw [tracked_congr push_trackBase]; exact hg.1, fun hmem => ?_⟩
  rcases List.mem_cons.mp hmem with hgf | hmem
  · exact h hgf
  · exact hg.2 hmem

/-- A live frame is not the head of the free list. -/
theorem Live.ne_head {rest : List ℕ} (hg : ph.Live g) (hfree : ph.free = f :: rest) : g ≠ f := by
  rintro rfl
  exact hg.2 (by simp [hfree])

end Phys

variable {ph ph' : Phys} {f : ℕ}

/-- `alloc_page` fails on an empty list and pops the head of any other. -/
theorem allocPage_of_marked (h : ph.Marked) :
    (ph.free = [] ∧ allocPage ph = some (none, ph)) ∨
    ∃ f rest, ph.free = f :: rest ∧ allocPage ph = some (some f, ph.pop f rest) := by
  cases hfree : ph.free with
  | nil => exact Or.inl ⟨rfl, by simp [allocPage, hfree]⟩
  | cons f rest =>
    refine Or.inr ⟨f, rest, rfl, ?_⟩
    have hmem : f ∈ ph.free := by simp [hfree]
    have ht : ph.tracked f = true := h.tracked f hmem
    have hc : ph.track (f - ph.trackBase) = false := (h.clear f ht).mpr hmem
    have ht' : ({ ph with
        page := Function.update ph.page f fun _ => 0#64
        free := rest
        taken := f :: ph.taken } : Phys).tracked f = true := ht
    simp only [allocPage, hfree, trackMark, ht', if_true, hc]
    rfl

theorem allocPage_cases (h : ph.Ok) :
    (ph.free = [] ∧ allocPage ph = some (none, ph)) ∨
    ∃ f rest, ph.free = f :: rest ∧ allocPage ph = some (some f, ph.pop f rest) :=
  allocPage_of_marked h.marked

theorem freePage_of_marked (h : ph.Marked) (hf : ph.Live f) :
    freePage ph f = some (ph.push f) := by
  have hc : ph.track (f - ph.trackBase) = true := by
    cases hb : ph.track (f - ph.trackBase) with
    | true => rfl
    | false => exact absurd ((h.clear f hf.1).mp hb) hf.2
  simp only [freePage, trackMark, hf.1, if_true, hc]
  rfl

theorem freePage_of_live (h : ph.Ok) (hf : ph.Live f) : freePage ph f = some (ph.push f) :=
  freePage_of_marked h.marked hf

/-- What a free does, whether or not the frame was live. -/
theorem freePage_effect (h : freePage ph f = some ph') :
    (∀ g, g ≠ f → ph'.page g = ph.page g) ∧ ph'.given = f :: ph.given ∧ ph'.taken = ph.taken := by
  obtain ⟨ph₁, hm, rfl⟩ := Option.map_eq_some_iff.mp h
  have hsame : ph₁.page = ph.page ∧ ph₁.given = ph.given ∧ ph₁.taken = ph.taken := by
    unfold trackMark at hm
    split at hm
    · split at hm
      · cases hm
      · cases hm
        exact ⟨rfl, rfl, rfl⟩
    · cases hm
      exact ⟨rfl, rfl, rfl⟩
  refine ⟨fun g hg => ?_, ?_, hsame.2.2⟩
  · show Radix.write ph₁.page f 0 _ g = ph.page g
    rw [Radix.write_of_node_ne hg, hsame.1]
  · show f :: ph₁.given = f :: ph.given
    rw [hsame.2.1]

/-- **Freeing a range of live frames keeps the allocator's invariant.** -/
theorem freePageRange_ok {start n : ℕ} (h : ph.Ok)
    (hlive : ∀ f, start ≤ f → f < start + n → ph.Live f) :
    ∃ ph', freePageRange ph start n = some ph' ∧ ph'.Ok := by
  induction n generalizing ph start with
  | zero => exact ⟨ph, rfl, h⟩
  | succ n ih =>
    have hstart : ph.Live start := hlive start (by omega) (by omega)
    obtain ⟨ph', hrun, hok⟩ := @ih (ph.push start) (start + 1) (h.push hstart) fun f hle hlt =>
      (hlive f (by omega) (by omega)).push (by omega)
    refine ⟨ph', ?_, hok⟩
    simp only [freePageRange, List.range'_succ, List.foldlM_cons, freePage_of_live h hstart]
    exact hrun

/-- **The allocator is well formed after boot**, wherever the kernel image ends in RAM. -/
theorem boot_ok {freeStart : ℕ} (h0 : 0x40000 ≤ freeStart) (h : freeStart < ramEnd) :
    ∃ ph, boot freeStart = some ph ∧ ph.Ok := by
  apply freePageRange_ok
  · exact ⟨List.nodup_nil, by simp [initPageTracking], h, by simp [initPageTracking]⟩
  · intro f hle hlt
    refine ⟨?_, by simp [initPageTracking]⟩
    rw [Phys.tracked_iff]
    simp only [initPageTracking, trackCapacity, ramEnd] at *
    omega

/-- A machine with sixteen free frames, for runs on concrete inputs. -/
def sixteenFrames : Phys where
  page := fun _ _ => 0#64
  free := [0x50000, 0x50001, 0x50002, 0x50003, 0x50004, 0x50005, 0x50006, 0x50007, 0x50008,
    0x50009, 0x5000a, 0x5000b, 0x5000c, 0x5000d, 0x5000e, 0x5000f]
  trackBase := 0x50000
  track := fun i => decide (16 ≤ i)
  taken := []
  given := []

theorem sixteenFrames_ok : sixteenFrames.Ok := by
  refine ⟨by decide, by decide, by decide, fun f hf => ?_⟩
  obtain ⟨-, hle, -⟩ := Phys.tracked_iff.mp hf
  simp only [sixteenFrames, decide_eq_false_iff_not, List.mem_cons, List.not_mem_nil, or_false] at *
  omega

end QuackOS.Mm
