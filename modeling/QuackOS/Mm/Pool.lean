import Mathlib.Data.List.Sort
import QuackOS.Lib.Run
import QuackOS.Mm.Frames

/-!
# The frame allocator

The allocator of `arch/aarch64/src/base/mm/mod.rs` with its counter, `FREE_COUNT`, and with
`alloc_pages_contig`, which takes pages until some of them are next to each other and gives the
others back.

* `Pool` — frames and counter, with the allocator's entry points;
* `Pool.Sound` — list, bitmap and counter agree;
* `agrees_run` — they agree after every run, no halt is reached, and `alloc_pages_contig` takes
  exactly what it returns.
-/

namespace QuackOS.Mm

/-- The frames and `FREE_COUNT`. -/
structure Pool where
  phys : Phys
  freeCount : ℕ

namespace Pool

/-- `alloc_page`; the outer `none` is a halt. -/
def allocPage (p : Pool) : Option (Option ℕ × Pool) :=
  (Mm.allocPage p.phys).bind fun
    | (none, ph) => some (none, { p with phys := ph })
    | (some f, ph) =>
      if p.freeCount = 0 then none else some (some f, { phys := ph, freeCount := p.freeCount - 1 })

/-- `free_page`, on the page number of the address. -/
def freePage (p : Pool) (f : ℕ) : Option Pool :=
  (Mm.freePage p.phys f).map fun ph => { phys := ph, freeCount := p.freeCount + 1 }

/-- `PAGE_SIZE`. -/
def pageSize : ℕ := 4096

/-- The first page that starts at the address or behind it. -/
def alignUp (addr : ℕ) : ℕ := (addr + (pageSize - 1)) / pageSize

/-- The pages that lie in `[start, stop)`, as page numbers. -/
def pagesIn (start stop : ℕ) : List ℕ :=
  List.range' (alignUp start) (stop / pageSize - alignUp start)

/-- Pages are given back one after the other. -/
def freePages (p : Pool) (pages : List ℕ) : Option Pool := pages.foldlM freePage p

/-- `free_page_range`. -/
def freePageRange (p : Pool) (start stop : ℕ) : Option Pool := p.freePages (pagesIn start stop)

/-- The scan of `alloc_pages_contig` for `count` pages in a row, behind the page `prev`; `run` is
the length of the row that `prev` ends.  Returns the index of the last page of the row. -/
def scanRun (count : ℕ) : ℕ → ℕ → ℕ → List ℕ → Option ℕ
  | _, _, _, [] => none
  | prev, run, i, f :: rest =>
    let run := if f = prev + 1 then run + 1 else 1
    if run = count then some i else scanRun count f run (i + 1) rest

/-- The index of the first page of the row. -/
def findRun (count : ℕ) : List ℕ → Option ℕ
  | [] => none
  | f :: rest => (scanRun count f 1 1 rest).map fun i => i + 1 - count

/-- The loop of `alloc_pages_contig`, with `n` free places in `held`. -/
def contigLoop (count : ℕ) : ℕ → List ℕ → Pool → Option (Option ℕ × Pool)
  | 0, held, p => (p.freePages held).map fun p => (none, p)
  | n + 1, held, p =>
    p.allocPage.bind fun
      | (none, p) => (p.freePages held).map fun p => (none, p)
      | (some f, p) =>
        if held.length + 1 < count then contigLoop count n (held ++ [f]) p
        else
          let held := (held ++ [f]).insertionSort (· ≤ ·)
          match findRun count held with
          | none => contigLoop count n held p
          | some i =>
            (p.freePages (held.take i ++ held.drop (i + count))).map fun p => (held[i]?, p)

/-- `alloc_pages_contig`. -/
def allocPagesContig (p : Pool) (count : ℕ) : Option (Option ℕ × Pool) :=
  if count = 0 ∨ 8 < count then some (none, p)
  else if count = 1 then p.allocPage
  else contigLoop count 128 [] p

/-- `init_page_tracking` and `free_page_range` over the bytes `[start, stop)` of RAM.  The source
keeps the base in bytes; pages have the same index when it is rounded up to a page. -/
def init (start stop : ℕ) : Option Pool :=
  freePageRange
    { phys := initPageTracking
        { page := fun _ _ => 0#64, free := [], trackBase := 0, track := fun _ => false,
          taken := [], given := [] } (alignUp start)
      freeCount := 0 } start stop

end Pool

/-- The entry points of the allocator. -/
inductive PoolCall where
  | allocPage
  | allocPagesContig (count : ℕ)
  | freePage (physAddr : ℕ)
  | freePageRange (start stop : ℕ)

/-- The pages a call gives back. -/
def PoolCall.pages : PoolCall → List ℕ
  | .allocPage => []
  | .allocPagesContig _ => []
  | .freePage physAddr => [physAddr / Pool.pageSize]
  | .freePageRange start stop => Pool.pagesIn start stop

/-- One call; `none` is a halt. -/
def PoolCall.run (p : Pool) : PoolCall → Option Pool
  | .allocPage => p.allocPage.map Prod.snd
  | .allocPagesContig count => (p.allocPagesContig count).map Prod.snd
  | .freePage physAddr => p.freePage (physAddr / Pool.pageSize)
  | .freePageRange start stop => p.freePageRange start stop

def poolStep (s : Option Pool) (c : PoolCall) : Option Pool := s.bind c.run

/-- A call gives back only pages of RAM that are allocated. -/
def PoolCall.Legal (ram : List ℕ) (p : Pool) (c : PoolCall) : Prop :=
  ∀ f ∈ c.pages, f ∈ ram ∧ f ∉ p.phys.free

/-! ## The invariant -/

/-- No page is on the list twice, the counter is the length of the list, and the bit of a page of
RAM is set exactly when the page is not on the list. -/
structure Pool.Agrees (ram : List ℕ) (p : Pool) : Prop where
  nodup : p.phys.free.Nodup
  freeCount : p.freeCount = p.phys.free.length
  bit : ∀ f ∈ ram, (p.phys.track (f - p.phys.trackBase) = true ↔ f ∉ p.phys.free)

/-- The call takes exactly the pages it returns, or none. -/
def Pool.Exact (p : Pool) (count : ℕ) : Prop :=
  ∃ r p', p.allocPagesContig count = some (r, p') ∧
    (∀ base, r = some base → (List.range' base count ++ p'.phys.free).Perm p.phys.free) ∧
    (r = none → p'.phys.free.Perm p.phys.free)

namespace Pool

variable {p : Pool} {ram held pages : List ℕ} {f count : ℕ}

/-- The invariant of the runs: besides, only pages of RAM are on the list, and all of RAM is
tracked. -/
structure Sound (ram : List ℕ) (p : Pool) : Prop where
  marked : p.phys.Marked
  freeCount : p.freeCount = p.phys.free.length
  inRam : ∀ f ∈ p.phys.free, f ∈ ram
  tracked : ∀ f ∈ ram, p.phys.tracked f = true

theorem Sound.agrees (h : p.Sound ram) : p.Agrees ram := by
  refine ⟨h.marked.nodup, h.freeCount, fun f hf => ?_⟩
  rw [← h.marked.clear f (h.tracked f hf), Bool.not_eq_false]

/-! ## One page -/

theorem Sound.allocPage (h : p.Sound ram) :
    (p.phys.free = [] ∧ p.allocPage = some (none, p)) ∨
    ∃ f p', p.allocPage = some (some f, p') ∧ p.phys.free = f :: p'.phys.free ∧ p'.Sound ram := by
  rcases allocPage_of_marked h.marked with ⟨hnil, halloc⟩ | ⟨f, rest, hfree, halloc⟩
  · left
    refine ⟨hnil, ?_⟩
    rw [Pool.allocPage, halloc]
    rfl
  · right
    have hcount := h.freeCount
    rw [hfree, List.length_cons] at hcount
    refine ⟨f, { phys := p.phys.pop f rest, freeCount := p.freeCount - 1 }, ?_, hfree, ?_, ?_, ?_, ?_⟩
    · rw [Pool.allocPage, halloc, Option.bind_some]
      exact if_neg (by omega)
    · exact h.marked.pop hfree
    · show p.freeCount - 1 = rest.length
      omega
    · intro g hg
      refine h.inRam g ?_
      rw [hfree]
      exact List.mem_cons_of_mem f hg
    · exact fun g hg => (Phys.tracked_congr Phys.pop_trackBase).trans (h.tracked g hg)

theorem Sound.freePage (h : p.Sound ram) (hf : f ∈ ram) (hnot : f ∉ p.phys.free) :
    ∃ p', p.freePage f = some p' ∧ p'.phys.free = f :: p.phys.free ∧ p'.Sound ram := by
  have hlive : p.phys.Live f := ⟨h.tracked f hf, hnot⟩
  refine ⟨{ phys := p.phys.push f, freeCount := p.freeCount + 1 }, ?_, rfl, ?_, ?_, ?_, ?_⟩
  · rw [Pool.freePage, freePage_of_marked h.marked hlive]
    rfl
  · exact h.marked.push hlive
  · show p.freeCount + 1 = (f :: p.phys.free).length
    rw [h.freeCount, List.length_cons]
  · intro g hg
    rcases List.mem_cons.mp hg with rfl | hg
    · exact hf
    · exact h.inRam g hg
  · exact fun g hg => (Phys.tracked_congr Phys.push_trackBase).trans (h.tracked g hg)

/-- Pages that are allocated can be given back together. -/
theorem Sound.freePages (h : p.Sound ram) (hram : ∀ f ∈ pages, f ∈ ram)
    (hnd : (pages ++ p.phys.free).Nodup) :
    ∃ p', p.freePages pages = some p' ∧ p'.phys.free.Perm (pages ++ p.phys.free) ∧
      p'.Sound ram := by
  induction pages generalizing p with
  | nil => exact ⟨p, rfl, List.Perm.refl _, h⟩
  | cons f pages ih =>
    have hperm : (pages ++ f :: p.phys.free).Perm (f :: (pages ++ p.phys.free)) :=
      List.perm_middle
    have hf : f ∉ p.phys.free := by
      intro hmem
      exact (List.nodup_cons.mp hnd).1 (List.mem_append_right pages hmem)
    obtain ⟨p₁, hp₁, hfree, hsound⟩ := h.freePage (hram f (List.mem_cons_self ..)) hf
    obtain ⟨p', hp', hfree', hsound'⟩ := ih hsound (fun g hg => hram g (List.mem_cons_of_mem f hg))
      (by rw [hfree]; exact hperm.nodup_iff.mpr hnd)
    refine ⟨p', ?_, ?_, hsound'⟩
    · rw [Pool.freePages, List.foldlM_cons, hp₁, Option.bind_eq_bind, Option.bind_some]
      exact hp'
    · rw [hfree] at hfree'
      exact hfree'.trans hperm

/-! ## Pages in a row -/

/-- The row before `prev` is `run` pages from `s` on, behind the pages `A`. -/
theorem scanRun_spec {A rest : List ℕ} {s run i k : ℕ} (hrun : 0 < run) (hi : i = A.length + run)
    (h : scanRun count (s + run - 1) run i rest = some k) :
    ∃ A' s' B', A ++ List.range' s run ++ rest = A' ++ List.range' s' count ++ B' ∧
      k + 1 - count = A'.length := by
  induction rest generalizing A s run i with
  | nil => cases h
  | cons f rest ih =>
    rw [scanRun] at h
    by_cases hnext : f = s + run - 1 + 1
    · have hf : f = s + run := by omega
      have hsplit : A ++ List.range' s run ++ f :: rest =
          A ++ List.range' s (run + 1) ++ rest := by
        rw [List.range'_concat, hf]
        simp
      rw [hsplit]
      rw [if_pos hnext] at h
      by_cases hdone : run + 1 = count
      · rw [if_pos hdone] at h
        cases h
        refine ⟨A, s, rest, by rw [hdone], ?_⟩
        omega
      · rw [if_neg hdone] at h
        refine @ih A s (run + 1) (i + 1) (Nat.succ_pos run) (by omega) ?_
        rwa [show s + (run + 1) - 1 = f by omega]
    · have hsplit : A ++ List.range' s run ++ f :: rest =
          (A ++ List.range' s run) ++ List.range' f 1 ++ rest := by simp
      rw [hsplit]
      rw [if_neg hnext] at h
      have hlen : (A ++ List.range' s run).length = A.length + run := by simp
      by_cases hdone : 1 = count
      · rw [if_pos hdone] at h
        cases h
        refine ⟨A ++ List.range' s run, f, rest, by rw [hdone], ?_⟩
        omega
      · rw [if_neg hdone] at h
        exact ih Nat.one_pos (by omega) h

theorem findRun_spec {i : ℕ} (h : findRun count held = some i) :
    ∃ A s B, held = A ++ List.range' s count ++ B ∧ i = A.length := by
  cases held with
  | nil => cases h
  | cons f rest =>
    rw [findRun] at h
    obtain ⟨k, hk, rfl⟩ := Option.map_eq_some_iff.mp h
    exact @scanRun_spec count [] rest f 1 1 k Nat.one_pos rfl hk

/-- The call ends well and took from the free pages `all` exactly those it returns, or none. -/
def Takes (ram all : List ℕ) (count : ℕ) (x : Option (Option ℕ × Pool)) : Prop :=
  ∃ r p', x = some (r, p') ∧ p'.Sound ram ∧
    (∀ base, r = some base → (List.range' base count ++ p'.phys.free).Perm all) ∧
    (r = none → p'.phys.free.Perm all)

/-- The end of the loop without a row. -/
theorem Sound.giveBack (h : p.Sound ram) {all : List ℕ} (hram : ∀ f ∈ held, f ∈ ram)
    (hnd : all.Nodup) (hall : (held ++ p.phys.free).Perm all) :
    Takes ram all count ((p.freePages held).map fun p => (none, p)) := by
  obtain ⟨p', hp', hfree, hsound⟩ := h.freePages hram (hall.nodup_iff.mpr hnd)
  exact ⟨none, p', by rw [hp']; rfl, hsound, (fun _ hr => nomatch hr), fun _ => hfree.trans hall⟩

/-- **The loop gives back what it does not return**; `all` are the pages that were free before. -/
theorem Sound.contigLoop (h : p.Sound ram) (hcount : 0 < count) {n : ℕ} {all : List ℕ}
    (hram : ∀ f ∈ held, f ∈ ram) (hnd : all.Nodup) (hall : (held ++ p.phys.free).Perm all) :
    Takes ram all count (contigLoop count n held p) := by
  induction n generalizing p held with
  | zero => exact h.giveBack hram hnd hall
  | succ n ih =>
    rw [Pool.contigLoop]
    rcases h.allocPage with ⟨-, halloc⟩ | ⟨f, p₁, halloc, hfree, hsound⟩
    · rw [halloc, Option.bind_some]
      exact h.giveBack hram hnd hall
    · rw [halloc, Option.bind_some]
      have hram' : ∀ g ∈ held ++ [f], g ∈ ram := by
        intro g hg
        rcases List.mem_append.mp hg with hg | hg
        · exact hram g hg
        · rw [List.mem_singleton.mp hg]
          exact h.inRam f (by simp [hfree])
      have hall' : (held ++ [f] ++ p₁.phys.free).Perm all := by
        rw [hfree] at hall
        rwa [List.append_assoc]
      show Takes ram all count (if held.length + 1 < count then _ else _)
      by_cases hshort : held.length + 1 < count
      · rw [if_pos hshort]
        exact ih hsound hram' hall'
      · rw [if_neg hshort]
        have hsort : ((held ++ [f]).insertionSort (· ≤ ·)).Perm (held ++ [f]) :=
          List.perm_insertionSort _ _
        generalize (held ++ [f]).insertionSort (· ≤ ·) = sorted at hsort
        have hram'' : ∀ g ∈ sorted, g ∈ ram := fun g hg => hram' g (hsort.mem_iff.mp hg)
        have hall'' : (sorted ++ p₁.phys.free).Perm all := (hsort.append_right _).trans hall'
        cases hfind : findRun count sorted with
        | none =>
          simp only [hfind]
          exact ih hsound hram'' hall''
        | some i =>
          obtain ⟨A, s, B, hsplit, rfl⟩ := findRun_spec hfind
          have hdrop : sorted.take A.length ++ sorted.drop (A.length + count) = A ++ B := by
            rw [hsplit, List.append_assoc, List.take_left', List.drop_append]
            · simp
            · rfl
          have hfirst : sorted[A.length]? = some s := by
            rw [hsplit, List.append_assoc, List.getElem?_append_right (Nat.le_refl _)]
            obtain ⟨k, rfl⟩ := Nat.exists_eq_succ_of_ne_zero (Nat.ne_of_gt hcount)
            simp [List.range'_succ]
          have hperm : (List.range' s count ++ (A ++ B ++ p₁.phys.free)).Perm all := by
            refine List.Perm.trans ?_ hall''
            rw [hsplit, List.append_assoc A B, ← List.append_assoc _ A,
              List.append_assoc (A ++ List.range' s count) B]
            exact List.perm_append_comm.append_right _
          have hnd' : (A ++ B ++ p₁.phys.free).Nodup :=
            (List.nodup_append.mp (hperm.nodup_iff.mpr hnd)).2.1
          obtain ⟨p', hp', hfree', hsound'⟩ := hsound.freePages (fun g hg => hram'' g (by
            rw [hsplit]
            simp only [List.mem_append] at hg ⊢
            tauto)) hnd'
          refine ⟨some s, p', ?_, hsound', ?_, fun hr => nomatch hr⟩
          · simp only [hfind, hdrop, hp', hfirst]
            rfl
          · rintro base ⟨⟩
            exact (hfree'.append_left _).trans hperm

theorem Sound.allocPagesContig (h : p.Sound ram) (count : ℕ) :
    Takes ram p.phys.free count (p.allocPagesContig count) := by
  unfold Pool.allocPagesContig
  by_cases hbad : count = 0 ∨ 8 < count
  · rw [if_pos hbad]
    exact ⟨none, p, rfl, h, (fun _ hr => nomatch hr), fun _ => List.Perm.refl _⟩
  · rw [if_neg hbad]
    by_cases hone : count = 1
    · subst hone
      rw [if_pos rfl]
      rcases h.allocPage with ⟨-, halloc⟩ | ⟨f, p', halloc, hfree, hsound⟩
      · exact ⟨none, p, halloc, h, (fun _ hr => nomatch hr), fun _ => List.Perm.refl _⟩
      · refine ⟨some f, p', halloc, hsound, ?_, fun hr => nomatch hr⟩
        rintro base ⟨⟩
        rw [hfree]
        exact List.Perm.refl _
    · rw [if_neg hone]
      exact h.contigLoop (by omega) (fun _ hf => nomatch hf) h.marked.nodup (List.Perm.refl _)

theorem Sound.exact (h : p.Sound ram) (count : ℕ) : p.Exact count := by
  obtain ⟨r, p', hrun, -, hsome, hnone⟩ := h.allocPagesContig count
  exact ⟨r, p', hrun, hsome, hnone⟩

/-! ## Runs -/

theorem nodup_pagesIn (start stop : ℕ) : (pagesIn start stop).Nodup := List.nodup_range'

/-- Allocated pages can be given back together when no page is among them twice. -/
theorem Sound.freeLegal (h : p.Sound ram) (hnd : pages.Nodup)
    (hlegal : ∀ f ∈ pages, f ∈ ram ∧ f ∉ p.phys.free) :
    ∃ p', p.freePages pages = some p' ∧ p'.phys.free.Perm (pages ++ p.phys.free) ∧
      p'.Sound ram := by
  have hnd' : (pages ++ p.phys.free).Nodup := by
    refine List.nodup_append.mpr ⟨hnd, h.marked.nodup, fun f hf g hg hfg => ?_⟩
    subst hfg
    exact (hlegal f hf).2 hg
  exact h.freePages (fun f hf => (hlegal f hf).1) hnd'

theorem Sound.run (h : p.Sound ram) {c : PoolCall} (hlegal : c.Legal ram p) :
    ∃ p', c.run p = some p' ∧ p'.Sound ram := by
  cases c with
  | allocPage =>
    rcases h.allocPage with ⟨-, halloc⟩ | ⟨f, p', halloc, -, hsound⟩
    · exact ⟨p, by rw [PoolCall.run, halloc]; rfl, h⟩
    · exact ⟨p', by rw [PoolCall.run, halloc]; rfl, hsound⟩
  | allocPagesContig count =>
    obtain ⟨r, p', hrun, hsound, -, -⟩ := h.allocPagesContig count
    exact ⟨p', by rw [PoolCall.run, hrun]; rfl, hsound⟩
  | freePage physAddr =>
    obtain ⟨hram, hnot⟩ := hlegal _ (List.mem_singleton_self _)
    obtain ⟨p', hp', -, hsound⟩ := h.freePage hram hnot
    exact ⟨p', hp', hsound⟩
  | freePageRange start stop =>
    obtain ⟨p', hp', -, hsound⟩ := h.freeLegal (nodup_pagesIn start stop) hlegal
    exact ⟨p', hp', hsound⟩

theorem init_sound {start stop : ℕ} (h0 : 0 < start)
    (hsize : (pagesIn start stop).length ≤ trackCapacity) :
    ∃ p, init start stop = some p ∧ p.Sound (pagesIn start stop) := by
  suffices hfree : ∃ p, init start stop = some p ∧ p.phys.free.Perm (pagesIn start stop ++ []) ∧
      p.Sound (pagesIn start stop) by
    obtain ⟨p, hp, -, hsound⟩ := hfree
    exact ⟨p, hp, hsound⟩
  refine Sound.freeLegal ⟨⟨List.nodup_nil, ?_, ?_⟩, rfl, ?_, ?_⟩ (nodup_pagesIn start stop) ?_
  · exact fun f hf => nomatch hf
  · intro f _
    simp [initPageTracking]
  · exact fun f hf => nomatch hf
  · intro f hf
    rw [pagesIn, List.length_range'] at hsize
    rw [pagesIn, List.mem_range'_1] at hf
    have hbase : alignUp start ≠ 0 := by
      unfold alignUp pageSize
      omega
    rw [Phys.tracked_iff]
    simp only [initPageTracking]
    omega
  · exact fun f hf => ⟨hf, fun h => nomatch h⟩

end Pool

/-- The state after a run. -/
theorem sound_run {start stop : ℕ} (h0 : 0 < start)
    (hsize : (Pool.pagesIn start stop).length ≤ trackCapacity) (calls : List PoolCall)
    (hlegal : Run.Along poolStep (fun s c => ∀ p, s = some p → c.Legal (Pool.pagesIn start stop) p)
      (Pool.init start stop) calls) :
    ∃ p, Run.exec poolStep (Pool.init start stop) calls = some p ∧
      p.Sound (Pool.pagesIn start stop) := by
  refine @Run.exec_invariant_along _ _ poolStep _
    (fun s => ∃ p, s = some p ∧ p.Sound (Pool.pagesIn start stop)) ?_ _
    (Pool.init_sound h0 hsize) _ hlegal
  rintro s c ⟨p, rfl, hp⟩ hc
  exact hp.run (hc p rfl)

/-- **`free_page_range` puts the pages of its range on the list**, and no others. -/
theorem freePageRange_run {start stop : ℕ} (h0 : 0 < start)
    (hsize : (Pool.pagesIn start stop).length ≤ trackCapacity) (calls : List PoolCall)
    (hlegal : Run.Along poolStep (fun s c => ∀ p, s = some p → c.Legal (Pool.pagesIn start stop) p)
      (Pool.init start stop) calls) :
    ∃ p, Run.exec poolStep (Pool.init start stop) calls = some p ∧
      ∀ a b, (PoolCall.freePageRange a b).Legal (Pool.pagesIn start stop) p →
        ∃ p', p.freePageRange a b = some p' ∧
          p'.phys.free.Perm (Pool.pagesIn a b ++ p.phys.free) := by
  obtain ⟨p, hp, hsound⟩ := sound_run h0 hsize calls hlegal
  refine ⟨p, hp, fun a b hab => ?_⟩
  obtain ⟨p', hp', hfree, -⟩ := hsound.freeLegal (Pool.nodup_pagesIn a b) hab
  exact ⟨p', hp', hfree⟩

/-- **List, bitmap and counter agree after every run, no call halts, and `alloc_pages_contig`
takes exactly the pages it returns**, for any RAM that the bitmap covers. -/
theorem agrees_run {start stop : ℕ} (h0 : 0 < start)
    (hsize : (Pool.pagesIn start stop).length ≤ trackCapacity) (calls : List PoolCall)
    (hlegal : Run.Along poolStep (fun s c => ∀ p, s = some p → c.Legal (Pool.pagesIn start stop) p)
      (Pool.init start stop) calls) :
    ∃ p, Run.exec poolStep (Pool.init start stop) calls = some p ∧
      p.Agrees (Pool.pagesIn start stop) ∧ ∀ count, p.Exact count := by
  obtain ⟨p, hp, hsound⟩ := sound_run h0 hsize calls hlegal
  exact ⟨p, hp, hsound.agrees, hsound.exact⟩

/-- Four pages of RAM: two of them are taken together and given back. -/
theorem agrees_run_stack : ∃ p, Run.exec poolStep (Pool.init 0x40000000 0x40004000)
    [.allocPagesContig 2, .allocPage, .freePageRange 0x40002000 0x40004000] = some p ∧
      p.Agrees (Pool.pagesIn 0x40000000 0x40004000) ∧ ∀ count, p.Exact count := by
  refine agrees_run (by decide) (by decide) _ ⟨?_, ?_, ?_, trivial⟩
  · exact fun _ _ _ hf => nomatch hf
  · exact fun _ _ _ hf => nomatch hf
  · intro p hp
    cases hp
    unfold PoolCall.Legal
    decide

end QuackOS.Mm
