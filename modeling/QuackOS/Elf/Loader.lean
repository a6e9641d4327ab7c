import QuackOS.Lib.Bytes
import QuackOS.Lib.Fallible
import QuackOS.Mm.Grant
import QuackOS.Mm.Pool

/-!
# The ELF loader

`load_elf_bytes` and `spawn_user_thread_in_as` of `common/src/usr/proc/elf_loader.rs`.  The parser
is `xmas_elf`'s; it is a parameter, and what it returns is `ElfFile`.

* `Phys.byte`, `Phys.store` — the bytes of a frame;
* `copySegmentData`, `zeroBss`, `mapPage` — one page;
* `collect`, `sortSegments`, `mapSegments`, `loadTls`, `mapBrk` — the phases;
* `loadElfBytes`, `spawnUserThreadInAs`.

A sum or difference that leaves `usize` counts as a panic, as it is in a debug build.
-/

namespace QuackOS.Mm

/-! ## Bytes of a frame -/

/-- Byte `j` of frame `f`. -/
def Phys.byte (ph : Phys) (f j : ℕ) : BitVec 8 :=
  Bytes.byte (ph.page f (Fin.ofNat 512 (j / 8))) (j % 8)

/-- The words that are made of the bytes. -/
def wordsOf (b : ℕ → BitVec 8) (i : Index) : Word := Bytes.ofBytes (fun k => b (8 * i + k)) 8

/-- The bytes of frame `f` from offset `lo` on, for `n` bytes, are overwritten. -/
def Phys.store (ph : Phys) (f lo n : ℕ) (b : ℕ → BitVec 8) : Phys :=
  ph.fill f (wordsOf fun j => if lo ≤ j ∧ j < lo + n then b (j - lo) else ph.byte f j)

end QuackOS.Mm

namespace QuackOS.Elf

open Mm

/-! ## Arithmetic -/

/-- `a + b` on `usize`. -/
def add (a b : ℕ) : Option ℕ := if a + b < 2 ^ 64 then some (a + b) else none

/-- `a - b` on `usize`. -/
def sub (a b : ℕ) : Option ℕ := if b ≤ a then some (a - b) else none

/-- `a * b` on `usize`. -/
def mul (a b : ℕ) : Option ℕ := if a * b < 2 ^ 64 then some (a * b) else none

/-- `page_align_down`. -/
def pageAlignDown (v : ℕ) : ℕ := v - v % 4096

/-- `page_align_up`. -/
def pageAlignUp (v : ℕ) : Option ℕ := do
  let sum ← add v 4096
  return pageAlignDown (sum - 1)

/-- `(start..stop).step_by(PAGE_SIZE)`. -/
def pagesBetween (start stop : ℕ) : List ℕ :=
  (List.range ((stop - start + 4095) / 4096)).map fun i => start + 4096 * i

/-! ## What the parser returns -/

/-- `program::Type`, as far as the loader tells the types apart; a type that is none counts as
`Null`. -/
inductive PhType
  | load | tls | other
  deriving DecidableEq, Repr

/-- `ProgramHeader`. -/
structure ProgramHeader where
  type : PhType
  virtualAddr : Word
  memSize : Word
  fileSize : Word
  offset : Word
  isRead : Bool
  isExecute : Bool

/-- `ElfFile`. -/
structure ElfFile where
  entryPoint : Word
  phOffset : Word
  phEntrySize : BitVec 16
  phCount : BitVec 16
  programIter : List ProgramHeader

/-! ## The state -/

/-- The table that is filled and physical memory, with the pages mapped so far, the last one
first. -/
structure Loader where
  pt : PageTable
  ph : Phys
  mapped : List ℕ

/-- A step of the loader. -/
abbrev Load := Fallible Loader String

/-! ## One page -/

/-- `elf_flags_to_mapf`. -/
def elfFlagsToMapf (h : ProgramHeader) : BitVec 16 :=
  PTEFlags.U ||| (if h.isRead then PTEFlags.R else 0) ||| PTEFlags.W |||
    (if h.isExecute then PTEFlags.X else 0)

/-- `copy_segment_data`, into frame `f`. -/
def copySegmentData (f pageVa segVa segFilesz segOffset : ℕ) (elfBytes : List (BitVec 8))
    (ph : Phys) : Option Phys := do
  let pageEnd ← add pageVa 4096
  let segDataEnd ← add segVa segFilesz
  let copyStart := max pageVa segVa
  let copyEnd := min pageEnd segDataEnd
  if copyStart ≥ copyEnd then return ph
  else
    let offsetInPage := copyStart - pageVa
    let copyLen := copyEnd - copyStart
    let fileOff ← add segOffset (copyStart - segVa)
    let fileEnd ← add fileOff copyLen
    if fileEnd ≤ elfBytes.length then
      return ph.store f offsetInPage copyLen fun k => elfBytes.getD (fileOff + k) 0
    else return ph

/-- `zero_bss`, in frame `f`. -/
def zeroBss (f pageVa dataEnd segEnd : ℕ) (ph : Phys) : Option Phys := do
  let pageEnd ← add pageVa 4096
  let bssStart := max pageVa dataEnd
  let bssFinish := min pageEnd segEnd
  if bssStart < bssFinish then
    return ph.store f (bssStart - pageVa) (bssFinish - bssStart) fun _ => 0
  else return ph

/-- A page is taken from the allocator, filled, and mapped at `va`.  `map_user_page` panics when
there is no frame for a table. -/
def mapPage (oom : String) (flags : BitVec 16) (fill : ℕ → ℕ → Phys → Option Phys) (va : ℕ) :
    Load Unit := fun l =>
  match allocPage l.ph with
  | none => none
  | some (none, ph) => some (.error oom, { l with ph })
  | some (some f, ph) => do
    let ph ← fill f va ph
    let (pt, ph) ← l.pt.map ph (va >>> 12) f (Bmm.toPteFlags flags)
    return (.ok (), { pt, ph, mapped := va :: l.mapped })

/-- The loops of the loader that map pages. -/
def mapPages (oom : String) (flags : BitVec 16) (fill : ℕ → ℕ → Phys → Option Phys) :
    List ℕ → Load Unit
  | [] => pure ()
  | va :: vas => do
    mapPage oom flags fill va
    mapPages oom flags fill vas

/-- `write_bytes(pa, 0, PAGE_SIZE)`. -/
def zeroPage (f _va : ℕ) (ph : Phys) : Option Phys := some (ph.fill f fun _ => 0)

/-- The flags of pages that no segment is in. -/
def anonFlags : BitVec 16 := PTEFlags.R ||| PTEFlags.W ||| PTEFlags.U

/-! ## Phase 1: the segments -/

/-- An entry of the six arrays `seg_starts`, `seg_ends`, .... -/
structure Segment where
  start : ℕ
  stop : ℕ
  filesz : ℕ
  offset : ℕ
  vaddr : ℕ
  mapf : BitVec 16
  deriving DecidableEq

/-- `MAX_SEGMENTS`. -/
def maxSegments : ℕ := 8

/-- What phase 1 has collected. -/
structure Collected where
  segs : List Segment
  dataEnd : ℕ
  tlsMemsz : ℕ

/-- A program header in phase 1; a segment behind the eighth only moves `data_end`. -/
def collectHeader (c : Collected) (h : ProgramHeader) : Option Collected :=
  match h.type with
  | .tls => some { c with tlsMemsz := h.memSize.toNat }
  | .other => some c
  | .load => do
    let vaddr := h.virtualAddr.toNat
    let segEnd ← add vaddr h.memSize.toNat
    let stop ← pageAlignUp segEnd
    let seg := {
      start := pageAlignDown vaddr, stop, filesz := h.fileSize.toNat, offset := h.offset.toNat,
      vaddr, mapf := elfFlagsToMapf h }
    return {
      segs := if c.segs.length < maxSegments then c.segs ++ [seg] else c.segs
      dataEnd := if segEnd > c.dataEnd then segEnd else c.dataEnd
      tlsMemsz := c.tlsMemsz }

/-- Phase 1. -/
def collect (headers : List ProgramHeader) : Option Collected :=
  headers.foldlM collectHeader { segs := [], dataEnd := 0, tlsMemsz := 0 }

/-! ## Phase 2: the order -/

/-- The inner loop of phase 2: the entry at `i` changes places with every entry behind it that
starts below it.  Returns the entry at `i` and those behind it. -/
def exchange : Segment → List Segment → Segment × List Segment
  | s, [] => (s, [])
  | s, t :: ts =>
    if s.start > t.start then
      let (m, rest) := exchange t ts
      (m, s :: rest)
    else
      let (m, rest) := exchange s ts
      (m, t :: rest)

theorem length_exchange (s : Segment) (ts : List Segment) : (exchange s ts).2.length = ts.length := by
  induction ts generalizing s with
  | nil => rfl
  | cons t ts ih =>
    rw [exchange]
    split
    · exact congrArg (· + 1) (ih t)
    · exact congrArg (· + 1) (ih s)

/-- Phase 2. -/
def sortSegments : List Segment → List Segment
  | [] => []
  | s :: ts => (exchange s ts).1 :: sortSegments (exchange s ts).2
termination_by ts => ts.length
decreasing_by
  rw [length_exchange]
  exact Nat.lt_succ_self _

/-! ## Phase 3: the pages of the segments -/

/-- The pages of the gap in front of a segment, behind a segment that ends at `lastEnd`. -/
def gapPages (lastEnd : ℕ) (s : Segment) : List ℕ :=
  if 0 < lastEnd ∧ s.start > lastEnd then pagesBetween lastEnd s.start else []

/-- The contents of a page of a segment. -/
def fillSegment (s : Segment) (elfBytes : List (BitVec 8)) (f va : ℕ) (ph : Phys) : Option Phys := do
  let ph ← copySegmentData f va s.vaddr s.filesz s.offset elfBytes ph
  let dataEnd ← add s.vaddr s.filesz
  zeroBss f va dataEnd s.stop ph

/-- Phase 3; returns the end of the last segment. -/
def mapSegments (elfBytes : List (BitVec 8)) : List Segment → ℕ → Load ℕ
  | [], lastEnd => pure lastEnd
  | s :: ss, lastEnd => do
    mapPages "OOM filling segment gap" anonFlags zeroPage (gapPages lastEnd s)
    mapPages "OOM loading ELF segment" s.mapf (fillSegment s elfBytes) (pagesBetween s.start s.stop)
    mapSegments elfBytes ss s.stop

/-! ## Phase 3.5: the TLS image -/

/-- A page of the image: the bytes go to the frame that the table has for the page, if any. -/
def patchPage (elfBytes : List (BitVec 8)) (vaddr copyLen offset va : ℕ) : Load Unit := fun l =>
  match l.pt.findPte l.ph (va >>> 12) with
  | none => some (.ok (), l)
  | some (n, i) =>
    if Pte.isValid (l.ph.page n i) then do
      let ph ← copySegmentData (Pte.ppn (l.ph.page n i)) va vaddr copyLen offset elfBytes l.ph
      return (.ok (), { l with ph })
    else some (.ok (), l)

/-- The loop over the pages of the image. -/
def patchPages (elfBytes : List (BitVec 8)) (vaddr copyLen offset : ℕ) : List ℕ → Load Unit
  | [] => pure ()
  | va :: vas => do
    patchPage elfBytes vaddr copyLen offset va
    patchPages elfBytes vaddr copyLen offset vas

/-- The bytes of the image that are copied. -/
def tlsCopyLen (elfBytes : List (BitVec 8)) (h : ProgramHeader) : ℕ :=
  min h.fileSize.toNat (elfBytes.length - h.offset.toNat)

/-- A program header in phase 3.5. -/
def loadTlsHeader (elfBytes : List (BitVec 8)) (h : ProgramHeader) (dataEnd tlsMemsz : ℕ) :
    Load (ℕ × ℕ) :=
  if h.type ≠ .tls ∨ h.fileSize.toNat = 0 ∨ h.memSize.toNat = 0 then pure (dataEnd, tlsMemsz)
  else do
    let imageEnd ← Fallible.lift (add h.virtualAddr.toNat h.fileSize.toNat)
    let dataEnd := if imageEnd > dataEnd then imageEnd else dataEnd
    let tlsMemsz := if h.memSize.toNat > tlsMemsz then h.memSize.toNat else tlsMemsz
    let copyLen := tlsCopyLen elfBytes h
    if copyLen = 0 then return (dataEnd, tlsMemsz)
    let copyEnd ← Fallible.lift (add h.virtualAddr.toNat copyLen)
    let stop ← Fallible.lift (pageAlignUp copyEnd)
    patchPages elfBytes h.virtualAddr.toNat copyLen h.offset.toNat
      (pagesBetween (pageAlignDown h.virtualAddr.toNat) stop)
    return (dataEnd, tlsMemsz)

/-- Phase 3.5; returns `data_end` and `tls_memsz`. -/
def loadTls (elfBytes : List (BitVec 8)) : List ProgramHeader → ℕ → ℕ → Load (ℕ × ℕ)
  | [], dataEnd, tlsMemsz => pure (dataEnd, tlsMemsz)
  | h :: hs, dataEnd, tlsMemsz => do
    let (dataEnd, tlsMemsz) ← loadTlsHeader elfBytes h dataEnd tlsMemsz
    loadTls elfBytes hs dataEnd tlsMemsz

/-! ## Phase 4: the pages at `brk` -/

/-- `brk_pages`. -/
def brkPages (tlsMemsz : ℕ) : Option ℕ :=
  if tlsMemsz > 0 then do
    let size ← add 0x200 tlsMemsz
    let size ← add size 4096
    return (size - 1) / 4096
  else some 4

/-- Phase 4. -/
def mapBrk (dataEnd tlsMemsz lastEnd : ℕ) : Load Unit := do
  let brk ← Fallible.lift (pageAlignUp dataEnd)
  let pages ← Fallible.lift (brkPages tlsMemsz)
  if brk ≥ lastEnd then
    let brkStart := pageAlignDown brk
    let size ← Fallible.lift (mul pages 4096)
    let stop ← Fallible.lift (add brkStart size)
    mapPages "OOM mapping brk area" anonFlags zeroPage (pagesBetween brkStart stop)
  else return ()

/-! ## The loader -/

/-- `LoadedElf`. -/
structure LoadedElf where
  entry : ℕ
  brk : ℕ
  phdrAddr : ℕ
  phentSize : ℕ
  phnum : ℕ

/-- `first_load_vaddr`. -/
def firstLoadVaddr (headers : List ProgramHeader) : ℕ :=
  ((headers.find? (·.type = .load)).map (·.virtualAddr.toNat)).getD 0

/-- `load_elf_bytes`. -/
def loadElfBytes (parse : List (BitVec 8) → Option ElfFile) (elfBytes : List (BitVec 8)) :
    Load LoadedElf :=
  match parse elfBytes with
  | none => Fallible.fail "Invalid ELF magic"
  | some elf => do
    let c ← Fallible.lift (collect elf.programIter)
    let lastEnd ← mapSegments elfBytes (sortSegments c.segs) 0
    let (dataEnd, tlsMemsz) ← loadTls elfBytes elf.programIter c.dataEnd c.tlsMemsz
    mapBrk dataEnd tlsMemsz lastEnd
    let phdrAddr ← Fallible.lift (add (firstLoadVaddr elf.programIter) elf.phOffset.toNat)
    let brk ← Fallible.lift (pageAlignUp dataEnd)
    return {
      entry := elf.entryPoint.toNat, brk, phdrAddr, phentSize := elf.phEntrySize.toNat,
      phnum := elf.phCount.toNat }

/-! ## The first thread -/

/-- The addresses of `spawn_user_thread_in_as`. -/
structure ThreadStart where
  ctxAddr : ℕ
  tfAddr : ℕ
  elr : ℕ
  sp : ℕ

/-- `spawn_user_thread_in_as` up to the call of `create_thread`, which works on no address of the
user. -/
def spawnUserThreadInAs (p : Pool) (entry stackTop : ℕ) : Option (Except String ThreadStart × Pool) :=
  match p.allocPagesContig 8 with
  | none => none
  | some (none, p) => some (.error "OOM for kernel stack", p)
  | some (some base, p) => do
    let ksTop ← add (base * 4096) (8 * 4096)
    let ctxAddr ← sub ksTop 128
    let tfAddr ← sub ctxAddr 288
    let sp ← sub stackTop 16
    return (.ok { ctxAddr, tfAddr, elr := entry, sp }, p)

end QuackOS.Elf
