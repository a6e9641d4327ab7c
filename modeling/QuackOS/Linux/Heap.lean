import QuackOS.Linux.Memory
import Mathlib.Order.Interval.Finset.Nat

/-!
# The program break

`do_brk` and `sys_brk` of liblinux against any kernel: the calls it makes of `map_page` and
`unmap_page` are a parameter.

* `Native` — the two calls of the kernel; `sysBrk_ofCpu` has the kernel's own;
* `scripted` — a kernel that answers `map_page` by any script and keeps the set of mapped pages;
* `brk_contract` — in every run of calls all of which the kernel serves, the value returned is the
  break, the break does not go below the start, and the pages mapped are those of the heap;
* `failed_growth_breaks` — a growth that fails returns the error's number and keeps its pages.
-/

namespace QuackOS.Linux

open Mm (Phys Cpu sysMapPage sysUnmapPage)

/-! ## Calls of the kernel -/

/-- `native::map_page` and `native::unmap_page` on the states of a kernel. -/
structure Native (κ : Type) where
  mapPage : κ → Word → ℕ → Option (ℤ × κ)
  unmapPage : κ → Word → Option κ

namespace Native

variable {κ : Type} (K : Native κ)

/-- `map_page` for some pages from an address on, until a call returns an error. -/
def mapPages (prot : ℕ) : ℕ → Word → κ → Option (ℤ × κ)
  | 0, _, s => some (0, s)
  | n + 1, va, s =>
    match K.mapPage s va prot with
    | some (ret, s) => if ret < 0 then some (ret, s) else mapPages prot n (va + 4096) s
    | none => none

/-- `unmap_page` for some pages from an address on. -/
def unmapPages : ℕ → Word → κ → Option κ
  | 0, _, s => some s
  | n + 1, va, s =>
    match K.unmapPage s va with
    | some s => unmapPages n (va + 4096) s
    | none => none

/-- `do_brk`. -/
def doBrk (task : TaskStruct) (s : κ) (newBrk : Word) :
    Option (Except ℤ Word × TaskStruct × κ) :=
  if newBrk.toNat < task.initialBrk.toNat then some (.ok task.brk, task, s)
  else if task.brk.toNat < newBrk.toNat then
    let start := pageUp task.brk
    match K.mapPages 3 (pageSteps start (pageUp newBrk)) start s with
    | some (ret, s) =>
      if ret < 0 then some (.error ret, task, s)
      else some (.ok newBrk, { task with brk := newBrk }, s)
    | none => none
  else if newBrk.toNat < task.brk.toNat then
    let start := pageUp newBrk
    (K.unmapPages (pageSteps start (pageUp task.brk)) start s).map
      fun s => (.ok newBrk, { task with brk := newBrk }, s)
  else some (.ok newBrk, { task with brk := newBrk }, s)

/-- `sys_brk`; a failure of `do_brk` is a negative number, and its negative is returned. -/
def sysBrk (task : TaskStruct) (s : κ) (newBrk : Word) : Option (Word × TaskStruct × κ) :=
  if newBrk = 0 then some (task.brk, task, s)
  else
    (K.doBrk task s newBrk).map fun r =>
      match r with
      | (.ok brk, task, s) => (brk, task, s)
      | (.error e, task, s) => (errnoWord e, task, s)

/-- The kernel of `Mm`. -/
def ofCpu (cpu : Cpu) : Native Phys :=
  { mapPage := fun ph va prot => sysMapPage cpu ph va.toNat prot
    unmapPage := fun ph va => (sysUnmapPage cpu ph va.toNat).map Prod.snd }

variable {cpu : Cpu} {task : TaskStruct} {ph : Phys} {newBrk : Word}

theorem mapPages_ofCpu (prot n : ℕ) (va : Word) (ph : Phys) :
    (ofCpu cpu).mapPages prot n va ph =
      (Linux.mapPages cpu prot n va ph).map fun r => (r.1, r.2.2) := by
  induction n generalizing va ph with
  | zero => rfl
  | succ n ih =>
    rw [mapPages, Linux.mapPages, ofCpu]
    dsimp only
    cases sysMapPage cpu ph va.toNat prot with
    | none => rfl
    | some r =>
      dsimp only
      split
      · rfl
      · exact ih (va + 4096) r.2

theorem unmapPages_ofCpu (n : ℕ) (va : Word) (ph : Phys) :
    (ofCpu cpu).unmapPages n va ph = Linux.unmapPages cpu n va ph := by
  induction n generalizing va ph with
  | zero => rfl
  | succ n ih =>
    rw [unmapPages, Linux.unmapPages, ofCpu]
    dsimp only
    cases sysUnmapPage cpu ph va.toNat with
    | none => rfl
    | some r => exact ih (va + 4096) r.2

/-- With the kernel's own calls this is the `sys_brk` of `Linux.Memory`. -/
theorem sysBrk_ofCpu (cpu : Cpu) (task : TaskStruct) (ph : Phys) (newBrk : Word) :
    (ofCpu cpu).sysBrk task ph newBrk = Linux.sysBrk cpu task ph newBrk := by
  have hdo : (ofCpu cpu).doBrk task ph newBrk = Linux.doBrk cpu task ph newBrk := by
    rw [doBrk, Linux.doBrk]
    dsimp only
    rw [mapPages_ofCpu, unmapPages_ofCpu]
    cases Linux.mapPages cpu 3 (pageSteps (pageUp task.brk) (pageUp newBrk)) (pageUp task.brk) ph with
    | none => rfl
    | some r => rfl
  rw [sysBrk, Linux.sysBrk, hdo]
  split
  · rfl
  · cases Linux.doBrk cpu task ph newBrk with
    | none => rfl
    | some r =>
      obtain ⟨_ | _, -⟩ := r
      · rfl
      · rfl

end Native

/-! ## A kernel that answers by a script -/

/-- The pages that are mapped, and the number of calls of `map_page` so far. -/
structure Script where
  pages : Finset ℕ
  calls : ℕ

/-- The kernel that answers its calls of `map_page` one after the other: an error maps nothing. -/
def scripted (answers : ℕ → ℤ) : Native Script :=
  { mapPage := fun s va _ => some (answers s.calls,
      { pages := if answers s.calls < 0 then s.pages else insert (va.toNat / 4096) s.pages
        calls := s.calls + 1 })
    unmapPage := fun s va => some { s with pages := s.pages.erase (va.toNat / 4096) } }

/-- A task and the kernel under it. -/
structure HeapState where
  task : TaskStruct
  kernel : Script

namespace HeapState

/-- `sys_brk`: what it returns, and the state after it. -/
def call (answers : ℕ → ℤ) (s : HeapState) (newBrk : Word) : Option (Word × HeapState) :=
  ((scripted answers).sysBrk s.task s.kernel newBrk).map fun r => (r.1, ⟨r.2.1, r.2.2⟩)

/-- The state after a call. -/
def step (answers : ℕ → ℤ) (s : HeapState) (newBrk : Word) : Option HeapState :=
  (s.call answers newBrk).map Prod.snd

/-- A new task whose heap has no pages. -/
def start (initialBrk : Word) : HeapState := ⟨.new initialBrk, ⟨∅, 0⟩⟩

/-- The call is to raise the break. -/
def Grows (s : HeapState) (newBrk : Word) : Prop :=
  newBrk ≠ 0 ∧ s.task.initialBrk.toNat ≤ newBrk.toNat ∧ s.task.brk.toNat < newBrk.toNat

/-- The number of calls of `map_page` to raise the break. -/
def growth (s : HeapState) (newBrk : Word) : ℕ := pageSteps (pageUp s.task.brk) (pageUp newBrk)

/-- The kernel serves the call: rounding the new break up does not wrap, or needs no new page, and
no page of the growth is refused. -/
def Served (answers : ℕ → ℤ) (s : HeapState) (newBrk : Word) : Prop :=
  s.Grows newBrk →
    (newBrk.toNat ≤ 2 ^ 64 - 4096 ∨ pagesFor newBrk = pagesFor s.task.brk) ∧
      ∀ k < s.growth newBrk, 0 ≤ answers (s.kernel.calls + k)

/-- A growth one of whose pages is refused. -/
def Fails (answers : ℕ → ℤ) (s : HeapState) (newBrk : Word) : Prop :=
  s.Grows newBrk ∧ ∃ k < s.growth newBrk, answers (s.kernel.calls + k) < 0

/-- The pages from the start of the heap to a break. -/
def heapPages (initialBrk brk : Word) : Finset ℕ := Finset.Ico (pagesFor initialBrk) (pagesFor brk)

/-- What a call owes its caller. -/
structure Contract (answers : ℕ → ℤ) (s : HeapState) (newBrk ret : Word) (s' : HeapState) :
    Prop where
  returns : ret = s'.task.brk
  floor : s.task.initialBrk.toNat ≤ ret.toNat
  failed : s.Fails answers newBrk →
    s'.task.brk = s.task.brk ∧ s'.kernel.pages = s.kernel.pages
  pages : s'.kernel.pages = heapPages s.task.initialBrk s'.task.brk

/-- The call returns, and keeps its contract. -/
def Keeps (answers : ℕ → ℤ) (s : HeapState) (newBrk : Word) : Prop :=
  ∃ ret s', s.call answers newBrk = some (ret, s') ∧ Contract answers s newBrk ret s'

end HeapState

/-! ## The loops over pages -/

section Loops

variable {answers : ℕ → ℤ} {n prot : ℕ}

theorem toNat_nextPage {va : Word} (h : va.toNat + 4096 * (n + 1) ≤ 2 ^ 64) (hn : 0 < n) :
    (va + 4096).toNat = va.toNat + 4096 := by
  rw [BitVec.toNat_add, show (4096 : Word).toNat = 4096 from rfl]
  exact Nat.mod_eq_of_lt (by omega)

theorem mem_Ico_add_succ {p a n : ℕ} :
    p ∈ Finset.Ico a (a + (n + 1)) ↔ p = a ∨ p ∈ Finset.Ico (a + 1) (a + 1 + n) := by
  rw [Finset.mem_Ico, Finset.mem_Ico]
  omega

theorem insert_union_Ico (P : Finset ℕ) (a n : ℕ) :
    insert a P ∪ Finset.Ico (a + 1) (a + 1 + n) = P ∪ Finset.Ico a (a + (n + 1)) := by
  ext p
  rw [Finset.mem_union, Finset.mem_union, Finset.mem_insert, mem_Ico_add_succ, or_left_comm,
    or_assoc]

theorem erase_sdiff_Ico (P : Finset ℕ) (a n : ℕ) :
    P.erase a \ Finset.Ico (a + 1) (a + 1 + n) = P \ Finset.Ico a (a + (n + 1)) := by
  ext p
  rw [Finset.mem_sdiff, Finset.mem_sdiff, Finset.mem_erase, mem_Ico_add_succ, not_or, and_assoc,
    and_left_comm]

/-- Pages that are all served are mapped. -/
theorem mapPages_served {s : Script} {va : Word} (hva : 0 < n → va.toNat + 4096 * n ≤ 2 ^ 64)
    (h : ∀ k < n, 0 ≤ answers (s.calls + k)) :
    (scripted answers).mapPages prot n va s = some (0,
      ⟨s.pages ∪ Finset.Ico (va.toNat / 4096) (va.toNat / 4096 + n), s.calls + n⟩) := by
  induction n generalizing va s with
  | zero => simp [Native.mapPages]
  | succ n ih =>
    have hfirst : ¬ answers s.calls < 0 := not_lt.mpr (h 0 (Nat.succ_pos n))
    have hbound := hva (Nat.succ_pos n)
    have hstep : (scripted answers).mapPages prot (n + 1) va s =
        (scripted answers).mapPages prot n (va + 4096)
          ⟨insert (va.toNat / 4096) s.pages, s.calls + 1⟩ := by
      simp only [Native.mapPages, scripted, if_neg hfirst]
    rcases Nat.eq_zero_or_pos n with rfl | hn
    · rw [hstep, Native.mapPages, Nat.Ico_succ_singleton, Finset.union_singleton]
    · have hnext := toNat_nextPage hbound hn
      rw [hstep, ih (fun _ => by omega) fun k hk => ?_]
      · dsimp only
        rw [hnext, show (va.toNat + 4096) / 4096 = va.toNat / 4096 + 1 by omega,
          insert_union_Ico, Nat.add_assoc s.calls, Nat.add_comm 1 n]
      · have hk' := h (k + 1) (by omega)
        rwa [show s.calls + (k + 1) = s.calls + 1 + k by omega] at hk'

/-- The first page that is refused ends the loop. -/
theorem mapPages_refused {s : Script} {va : Word} (h : ∃ k < n, answers (s.calls + k) < 0) :
    ∃ k s', (scripted answers).mapPages prot n va s = some (answers k, s') ∧ answers k < 0 := by
  induction n generalizing va s with
  | zero =>
    obtain ⟨k, hk, -⟩ := h
    exact absurd hk (Nat.not_lt_zero k)
  | succ n ih =>
    by_cases hfirst : answers s.calls < 0
    · refine ⟨s.calls, ⟨s.pages, s.calls + 1⟩, ?_, hfirst⟩
      simp only [Native.mapPages, scripted, if_pos hfirst]
    · obtain ⟨k, hk, hneg⟩ := h
      have hpos : k ≠ 0 := fun hzero => hfirst (by rwa [hzero] at hneg)
      obtain ⟨j, rfl⟩ := Nat.exists_eq_succ_of_ne_zero hpos
      have hrest : ∃ k < n, answers (s.calls + 1 + k) < 0 :=
        ⟨j, by omega, by rwa [show s.calls + 1 + j = s.calls + (j + 1) by omega]⟩
      obtain ⟨k, s', hrun, hk'⟩ := @ih ⟨insert (va.toNat / 4096) s.pages, s.calls + 1⟩ (va + 4096) hrest
      refine ⟨k, s', ?_, hk'⟩
      rw [← hrun]
      simp only [Native.mapPages, scripted, if_neg hfirst]

/-- Pages are unmapped whatever the kernel answered before. -/
theorem unmapPages_scripted {s : Script} {va : Word}
    (hva : 0 < n → va.toNat + 4096 * n ≤ 2 ^ 64) :
    (scripted answers).unmapPages n va s = some
      ⟨s.pages \ Finset.Ico (va.toNat / 4096) (va.toNat / 4096 + n), s.calls⟩ := by
  induction n generalizing va s with
  | zero => simp [Native.unmapPages]
  | succ n ih =>
    have hbound := hva (Nat.succ_pos n)
    have hstep : (scripted answers).unmapPages (n + 1) va s =
        (scripted answers).unmapPages n (va + 4096)
          ⟨s.pages.erase (va.toNat / 4096), s.calls⟩ := rfl
    rcases Nat.eq_zero_or_pos n with rfl | hn
    · rw [hstep]
      simp [Native.unmapPages, Finset.sdiff_singleton_eq_erase]
    · have hnext := toNat_nextPage hbound hn
      rw [hstep, ih fun _ => by omega]
      dsimp only
      rw [hnext, show (va.toNat + 4096) / 4096 = va.toNat / 4096 + 1 by omega, erase_sdiff_Ico]

end Loops

/-! ## Rounding breaks up -/

section Rounding

variable {lo hi : Word}

/-- Near the end of the address space rounding up wraps to address 0. -/
theorem toNat_pageUp_wraps (h : 2 ^ 64 - 4096 < lo.toNat) : (pageUp lo).toNat = 0 := by
  have hlt := lo.isLt
  rw [show pageUp lo = pageDown (lo + 4095) from rfl, toNat_pageDown, BitVec.toNat_add,
    show (4095 : Word).toNat = 4095 from rfl]
  omega

/-- The pages between two breaks, when rounding the higher one does not wrap or there are none. -/
theorem pageSteps_between (hle : lo.toNat ≤ hi.toNat)
    (h : hi.toNat ≤ 2 ^ 64 - 4096 ∨ pagesFor hi = pagesFor lo) :
    pageSteps (pageUp lo) (pageUp hi) = pagesFor hi - pagesFor lo ∧
      (0 < pagesFor hi - pagesFor lo →
        (pageUp lo).toNat = 4096 * pagesFor lo ∧ 4096 * pagesFor hi ≤ 2 ^ 64) := by
  have hlt := hi.isLt
  by_cases hfits : hi.toNat ≤ 2 ^ 64 - 4096
  · have hlo : lo.toNat ≤ 2 ^ 64 - 4096 := by omega
    unfold pageSteps pagesFor
    rw [toNat_pageUp hlo, toNat_pageUp hfits]
    omega
  · have hsame := h.resolve_left hfits
    have hlo : 2 ^ 64 - 4096 < lo.toNat := by
      unfold pagesFor at hsame
      omega
    rw [pageSteps, toNat_pageUp_wraps hlo, toNat_pageUp_wraps (Nat.lt_of_not_le hfits), hsame]
    omega

theorem pagesFor_mono (h : lo.toNat ≤ hi.toNat) : pagesFor lo ≤ pagesFor hi :=
  Nat.div_le_div_right (Nat.add_le_add_right h _)

/-- The pages that a loop over the addresses between two breaks is about. -/
theorem pages_between (hle : lo.toNat ≤ hi.toNat)
    (h : hi.toNat ≤ 2 ^ 64 - 4096 ∨ pagesFor hi = pagesFor lo) :
    Finset.Ico ((pageUp lo).toNat / 4096)
      ((pageUp lo).toNat / 4096 + pageSteps (pageUp lo) (pageUp hi)) =
      Finset.Ico (pagesFor lo) (pagesFor hi) ∧
    (0 < pageSteps (pageUp lo) (pageUp hi) →
      (pageUp lo).toNat + 4096 * pageSteps (pageUp lo) (pageUp hi) ≤ 2 ^ 64) := by
  obtain ⟨hsteps, hbase⟩ := pageSteps_between hle h
  have hup := pagesFor_mono hle
  rw [hsteps]
  refine ⟨?_, fun hpos => by have hb := hbase hpos; omega⟩
  rcases Nat.eq_zero_or_pos (pagesFor hi - pagesFor lo) with hd | hd
  · rw [hd, Nat.add_zero, Finset.Ico_self, Finset.Ico_eq_empty (by omega)]
  · rw [(hbase hd).1, Nat.mul_div_cancel_left _ (by decide), Nat.add_sub_cancel' hup]

end Rounding

/-! ## One call -/

namespace HeapState

variable {answers : ℕ → ℤ} {s s' : HeapState} {initialBrk newBrk : Word}

/-- The heap is as it should be; a break near the end of the address space is one that has no
page. -/
structure Ok (initialBrk : Word) (s : HeapState) : Prop where
  initial : s.task.initialBrk = initialBrk
  floor : initialBrk.toNat ≤ s.task.brk.toNat
  pages : s.kernel.pages = heapPages initialBrk s.task.brk
  fits : s.task.brk.toNat ≤ 2 ^ 64 - 4096 ∨ pagesFor s.task.brk = pagesFor initialBrk

theorem ok_start (initialBrk : Word) : (start initialBrk).Ok initialBrk :=
  ⟨rfl, le_rfl, (Finset.Ico_self _).symm, .inr rfl⟩

/-- A call that does not raise the break to a new value leaves everything alone. -/
theorem call_same (h : newBrk = 0 ∨ newBrk.toNat < s.task.initialBrk.toNat) :
    s.call answers newBrk = some (s.task.brk, s) := by
  by_cases hzero : newBrk = 0
  · rw [call, Native.sysBrk, if_pos hzero]
    rfl
  · rw [call, Native.sysBrk, if_neg hzero, Native.doBrk, if_pos (h.resolve_left hzero)]
    rfl

/-- The state with another break and the kernel after it. -/
def moved (s : HeapState) (newBrk : Word) (k : Script) : HeapState :=
  ⟨{ s.task with brk := newBrk }, k⟩

/-- The break after a growth whose pages are all mapped. -/
theorem call_grown (hgrows : s.Grows newBrk) {k : Script}
    (hmap : (scripted answers).mapPages 3 (s.growth newBrk) (pageUp s.task.brk) s.kernel =
      some (0, k)) :
    s.call answers newBrk = some (newBrk, s.moved newBrk k) := by
  obtain ⟨hzero, hfloor, hlt⟩ := hgrows
  rw [growth] at hmap
  rw [call, Native.sysBrk, if_neg hzero, Native.doBrk, if_neg (Nat.not_lt.mpr hfloor), if_pos hlt]
  dsimp only
  rw [hmap]
  rfl

/-- What a growth returns when a page of it is refused. -/
theorem call_refused (hgrows : s.Grows newBrk) {e : ℤ} (he : e < 0) {k : Script}
    (hmap : (scripted answers).mapPages 3 (s.growth newBrk) (pageUp s.task.brk) s.kernel =
      some (e, k)) :
    s.call answers newBrk = some (errnoWord e, ⟨s.task, k⟩) := by
  obtain ⟨hzero, hfloor, hlt⟩ := hgrows
  rw [growth] at hmap
  rw [call, Native.sysBrk, if_neg hzero, Native.doBrk, if_neg (Nat.not_lt.mpr hfloor), if_pos hlt]
  dsimp only
  rw [hmap]
  dsimp only
  rw [if_pos he]
  rfl

/-- A break that goes down, or stays. -/
theorem call_shrunk (hzero : newBrk ≠ 0) (hfloor : s.task.initialBrk.toNat ≤ newBrk.toNat)
    (hle : newBrk.toNat ≤ s.task.brk.toNat) {k : Script}
    (hunmap : (scripted answers).unmapPages (pageSteps (pageUp newBrk) (pageUp s.task.brk))
      (pageUp newBrk) s.kernel = some k) :
    s.call answers newBrk = some (newBrk, s.moved newBrk k) := by
  rw [call, Native.sysBrk, if_neg hzero, Native.doBrk, if_neg (Nat.not_lt.mpr hfloor),
    if_neg (Nat.not_lt.mpr hle)]
  rcases Nat.lt_or_eq_of_le hle with hlt | heq
  · rw [if_pos hlt]
    dsimp only
    rw [hunmap]
    rfl
  · rw [if_neg (Nat.not_lt.mpr heq.ge)]
    -- no page lies between a break and itself
    have hsame : newBrk = s.task.brk := BitVec.eq_of_toNat_eq heq
    have hnone : pageSteps (pageUp newBrk) (pageUp s.task.brk) = 0 := by
      rw [hsame, pageSteps, Nat.sub_self]
    rw [hnone] at hunmap
    cases hunmap
    rfl

/-- A growth that is served. -/
theorem Ok.grow (h : s.Ok initialBrk) (hserved : s.Served answers newBrk) (hgrows : s.Grows newBrk) :
    ∃ k, s.call answers newBrk = some (newBrk, s.moved newBrk k) ∧
      (s.moved newBrk k).Ok initialBrk := by
  obtain ⟨hroom, hall⟩ := hserved hgrows
  have hlt := hgrows.2.2
  have hinit : initialBrk.toNat ≤ newBrk.toNat := h.initial ▸ hgrows.2.1
  obtain ⟨hrange, hbound⟩ := pages_between hlt.le hroom
  refine ⟨_, call_grown hgrows (mapPages_served hbound hall), h.initial, hinit, ?_, ?_⟩
  · rw [moved, h.pages, growth, hrange, heapPages, heapPages]
    exact Finset.Ico_union_Ico_eq_Ico (pagesFor_mono h.floor) (pagesFor_mono hlt.le)
  · have hfits := h.fits
    rw [moved]
    unfold pagesFor at hroom hfits ⊢
    dsimp only
    omega

/-- A break that goes down. -/
theorem Ok.shrink (h : s.Ok initialBrk) (hzero : newBrk ≠ 0)
    (hfloor : initialBrk.toNat ≤ newBrk.toNat) (hle : newBrk.toNat ≤ s.task.brk.toNat) :
    ∃ k, s.call answers newBrk = some (newBrk, s.moved newBrk k) ∧
      (s.moved newBrk k).Ok initialBrk := by
  have hlow := pagesFor_mono hfloor
  have hup := pagesFor_mono hle
  have hfits := h.fits
  obtain ⟨hrange, hbound⟩ := pages_between hle (by omega)
  refine ⟨_, call_shrunk hzero (h.initial ▸ hfloor) hle (unmapPages_scripted hbound), h.initial,
    hfloor, ?_, ?_⟩
  · rw [moved, h.pages, hrange, heapPages, heapPages]
    dsimp only
    rw [Finset.Ico_sdiff_Ico_right, Nat.min_eq_right hup]
  · rw [moved]
    dsimp only
    omega

/-- **The step lemma.** -/
theorem Ok.call (h : s.Ok initialBrk) (hserved : s.Served answers newBrk) :
    ∃ s', s.call answers newBrk = some (s'.task.brk, s') ∧ s'.Ok initialBrk := by
  by_cases hsame : newBrk = 0 ∨ newBrk.toNat < s.task.initialBrk.toNat
  · exact ⟨s, call_same hsame, h⟩
  · rw [not_or, Nat.not_lt] at hsame
    obtain ⟨hzero, hfloor⟩ := hsame
    rcases Nat.lt_or_ge s.task.brk.toNat newBrk.toNat with hlt | hle
    · obtain ⟨k, hcall, hok⟩ := h.grow hserved ⟨hzero, hfloor, hlt⟩
      exact ⟨_, hcall, hok⟩
    · obtain ⟨k, hcall, hok⟩ := h.shrink hzero (h.initial ▸ hfloor) hle
      exact ⟨_, hcall, hok⟩

theorem Ok.keeps (h : s.Ok initialBrk) (hserved : s.Served answers newBrk) :
    s.Keeps answers newBrk := by
  obtain ⟨s', hcall, hok⟩ := h.call hserved
  refine ⟨s'.task.brk, s', hcall, rfl, h.initial ▸ hok.floor, ?_, h.initial ▸ hok.pages⟩
  rintro ⟨hgrows, k, hk, hneg⟩
  exact absurd hneg (not_lt.mpr ((hserved hgrows).2 k hk))

theorem Ok.step (h : s.Ok initialBrk) (hserved : s.Served answers newBrk)
    (hstep : s.step answers newBrk = some s') : s'.Ok initialBrk := by
  obtain ⟨s₁, hcall, hok⟩ := h.call hserved
  rw [HeapState.step, hcall] at hstep
  exact Option.some.inj hstep ▸ hok

/-- A break that wraps to address 0 when it is rounded up gets no pages. -/
theorem Ok.not_keeps_of_wrap (h : s.Ok initialBrk) (hgrows : s.Grows newBrk)
    (hwrap : 2 ^ 64 - 4096 < newBrk.toNat) (hne : pagesFor newBrk ≠ pagesFor s.task.brk) :
    ¬ s.Keeps answers newBrk := by
  have hnone : s.growth newBrk = 0 := by
    rw [growth, pageSteps, toNat_pageUp_wraps hwrap, Nat.zero_sub]
  have hmap : (scripted answers).mapPages 3 (s.growth newBrk) (pageUp s.task.brk) s.kernel =
      some (0, s.kernel) := by
    rw [hnone, Native.mapPages]
  have hcall := call_grown hgrows hmap
  rintro ⟨ret, s', hcall', hcontract⟩
  obtain ⟨rfl, rfl⟩ := Prod.mk.inj (Option.some.inj (hcall.symm.trans hcall'))
  have hpages := hcontract.pages
  rw [moved, h.pages, h.initial] at hpages
  have hlow := pagesFor_mono h.floor
  have hup := pagesFor_mono hgrows.2.2.le
  have hmem : pagesFor s.task.brk ∈ heapPages initialBrk newBrk :=
    Finset.mem_Ico.mpr ⟨hlow, by omega⟩
  dsimp only at hpages
  rw [← hpages, heapPages, Finset.mem_Ico] at hmem
  omega

/-- The number of an error is not an address of the heap. -/
theorem Ok.not_keeps_of_refused (h : s.Ok initialBrk) (herrno : ∀ n, -4095 ≤ answers n)
    (hbase : 4096 ≤ initialBrk.toNat) (hfails : s.Fails answers newBrk) :
    ¬ s.Keeps answers newBrk := by
  obtain ⟨hgrows, hrefused⟩ := hfails
  obtain ⟨n, k, hmap, hneg⟩ := @mapPages_refused answers _ 3 s.kernel (pageUp s.task.brk) hrefused
  have hcall := call_refused hgrows hneg hmap
  rintro ⟨ret, s', hcall', hcontract⟩
  obtain ⟨rfl, rfl⟩ := Prod.mk.inj (Option.some.inj (hcall.symm.trans hcall'))
  have hfloor := hcontract.floor
  have hlow := herrno n
  rw [h.initial, errnoWord, BitVec.toNat_ofInt] at hfloor
  omega

/-- With errors in the kernel's range and a heap above the first page, the condition is exact. -/
theorem Ok.served (h : s.Ok initialBrk) (herrno : ∀ n, -4095 ≤ answers n)
    (hbase : 4096 ≤ initialBrk.toNat) (hkeeps : s.Keeps answers newBrk) :
    s.Served answers newBrk := by
  intro hgrows
  refine ⟨?_, fun k hk => ?_⟩
  · by_contra hnot
    rw [not_or, Nat.not_le] at hnot
    exact h.not_keeps_of_wrap hgrows hnot.1 hnot.2 hkeeps
  · by_contra hneg
    exact h.not_keeps_of_refused herrno hbase ⟨hgrows, k, hk, not_le.mp hneg⟩ hkeeps

end HeapState

open HeapState

/-- **The contract of `brk`.**  In every run of calls that the kernel serves, each call returns the
break after it, which is not below the start of the heap, and the pages that are mapped are those
from the start to the break, both rounded up.  With errors that are numbers up to 4095 and a heap
that starts above the first page there is no other run in which every call does: a growth that fails
returns the number of the error. -/
theorem brk_contract (answers : ℕ → ℤ) (initialBrk : Word) (calls : List Word) :
    (Run.AlongSome (HeapState.step answers) (Served answers) (HeapState.start initialBrk) calls →
      Run.AlongSome (HeapState.step answers) (Keeps answers) (HeapState.start initialBrk) calls) ∧
    ((∀ n, -4095 ≤ answers n) → 4096 ≤ initialBrk.toNat →
      Run.AlongSome (HeapState.step answers) (Keeps answers) (HeapState.start initialBrk) calls →
      Run.AlongSome (HeapState.step answers) (Served answers) (HeapState.start initialBrk) calls) := by
  refine ⟨fun hserved => ?_, fun herrno hbase hkeeps => ?_⟩
  · exact Run.alongSome_of_invariant (fun _ _ _ h hs hstep => h.step hs hstep)
      (fun _ _ h hs => h.keeps hs) (ok_start initialBrk) hserved
  · exact Run.alongSome_of_invariant
      (fun _ _ _ h hk hstep => h.step (h.served herrno hbase hk) hstep)
      (fun _ _ h hk => h.served herrno hbase hk) (ok_start initialBrk) hkeeps

/-- The heap grows by two pages, and by two more, loses three and gets one back; a call below its
start changes nothing. -/
theorem brk_contract_turns : Run.AlongSome (HeapState.step fun _ => 0) (Keeps fun _ => 0)
      (HeapState.start 0x10000) [0x12000, 0x13800, 0x10800, 0x8000, 0x11800] ∧
    ([0x12000, 0x13800, 0x10800, 0x8000, 0x11800].foldlM (HeapState.step fun _ => 0)
      (HeapState.start 0x10000)).map (fun s => (s.task.brk, s.kernel.pages)) =
        some (0x11800, {0x10, 0x11}) := by
  refine ⟨(brk_contract _ _ _).1 ?_, by decide +kernel⟩
  refine ⟨fun _ => ?_, fun s₁ h₁ => ⟨fun _ => ?_, fun s₂ h₂ => ⟨fun _ => ?_, fun s₃ h₃ =>
    ⟨fun _ => ?_, fun s₄ h₄ => ⟨fun _ => ?_, fun _ _ => trivial⟩⟩⟩⟩⟩
  all_goals exact ⟨Or.inl (by decide), fun _ _ => le_rfl⟩

/-- A kernel that has one page to give. -/
def onePage : ℕ → ℤ := fun n => if n = 0 then 0 else -12

/-- **A growth that fails returns 12**, neither the break nor an address of the heap, and the page
it got stays mapped above the break. -/
theorem failed_growth_breaks :
    (HeapState.start 0x10000).call onePage 0x12000 = some (12, ⟨.new 0x10000, ⟨{0x10}, 2⟩⟩) ∧
    ¬ Run.AlongSome (HeapState.step onePage) (Keeps onePage) (HeapState.start 0x10000) [0x12000] := by
  have hgrows : (HeapState.start 0x10000).Grows 0x12000 := ⟨by decide, by decide, by decide⟩
  have hcount : (HeapState.start 0x10000).growth 0x12000 = 2 := by decide
  have hmap : (scripted onePage).mapPages 3 ((HeapState.start 0x10000).growth 0x12000)
      (pageUp (HeapState.start 0x10000).task.brk) (HeapState.start 0x10000).kernel =
        some (-12, ⟨{0x10}, 2⟩) := by
    rw [hcount]
    rfl
  refine ⟨call_refused hgrows (by decide) hmap, fun h => ?_⟩
  refine (ok_start 0x10000).not_keeps_of_refused (fun n => ?_) (by decide) ⟨hgrows, 1, ?_, ?_⟩ h.1
  · rw [onePage]
    split <;> decide
  · rw [hcount]
    decide
  · decide

end QuackOS.Linux
