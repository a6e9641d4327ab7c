import QuackOS.Mm.Frames
import QuackOS.Mm.Pte

/-!
# Page tables

`page_table.rs` of the aarch64 port and `create_kernel_mapped_page_table` of `bmm/mod.rs`:
four levels of 512 descriptors, a handle that may own the tree, and a chain of tracker pages
in which an owning handle writes down the tables it allocated.

A function that the source lets panic or halt returns an `Option`, with `none` for that end;
what the source returns as `None` or `Err` is a value inside it.
-/

namespace QuackOS.Mm

/-- `VirtPageNum::indexes`. -/
def indexes (vpn : ℕ) : List Index :=
  [Fin.ofNat 512 (vpn >>> 27), Fin.ofNat 512 (vpn >>> 18), Fin.ofNat 512 (vpn >>> 9),
    Fin.ofNat 512 vpn]

/-- A word stored at index `i` of frame `f`. -/
def Phys.set (ph : Phys) (f : ℕ) (i : Index) (w : Word) : Phys :=
  { ph with page := Radix.write ph.page f i w }

/-- All words of frame `f` written. -/
def Phys.fill (ph : Phys) (f : ℕ) (ws : Index → Word) : Phys :=
  { ph with page := Function.update ph.page f ws }

namespace Phys

variable {ph : Phys} {f g : ℕ} {i : Index} {w : Word} {ws : Index → Word}

@[simp] theorem set_free : (ph.set f i w).free = ph.free := rfl
@[simp] theorem set_trackBase : (ph.set f i w).trackBase = ph.trackBase := rfl
@[simp] theorem set_taken : (ph.set f i w).taken = ph.taken := rfl
@[simp] theorem set_given : (ph.set f i w).given = ph.given := rfl

@[simp] theorem set_page_self : (ph.set f i w).page f = Function.update (ph.page f) i w := by
  simp [set, Radix.write]

theorem set_page_of_ne (h : g ≠ f) : (ph.set f i w).page g = ph.page g :=
  Radix.write_of_node_ne h

theorem set_page_apply_of_ne {j : Index} (h : ¬ (g = f ∧ j = i)) :
    (ph.set f i w).page g j = ph.page g j := Radix.write_of_ne h

@[simp] theorem fill_page_self : (ph.fill f ws).page f = ws := Function.update_self ..

theorem fill_page_of_ne (h : g ≠ f) : (ph.fill f ws).page g = ph.page g :=
  Function.update_of_ne h ..

theorem Ok.fill (h : ph.Ok) : (ph.fill f ws).Ok := ⟨h.nodup, h.tracked, h.base_lt, h.clear⟩

theorem Ok.set (h : ph.Ok) : (ph.set f i w).Ok := ⟨h.nodup, h.tracked, h.base_lt, h.clear⟩

end Phys

/-! ## Handles and tracker pages -/

/-- `PageTable`: a handle on a tree of tables. -/
structure PageTable where
  rootPpn : ℕ
  /-- The first tracker page. -/
  trackerHead : Option ℕ
  /-- Does dropping the handle free the tree? -/
  ownsRoot : Bool
  deriving DecidableEq

/-- `TRACKER_CAPACITY`. -/
def trackerCapacity : ℕ := 509

/-- `TrackerPage::count`, behind the 509 frames. -/
def countIx : Index := 509
/-- The tag of `TrackerPage::next`, a two-word option. -/
def nextTagIx : Index := 510
/-- The payload of `TrackerPage::next`. -/
def nextIx : Index := 511

/-- `TrackerPage::next`. -/
def trackerNext (ph : Phys) (tp : ℕ) : Option ℕ :=
  if ph.page tp nextTagIx = 0 then none else some (ph.page tp nextIx).toNat

namespace PageTable

/-- The head of the tracker chain, allocated if there is none yet. -/
def firstTracker (pt : PageTable) (ph : Phys) : Option (ℕ × PageTable × Phys) :=
  match pt.trackerHead with
  | some tp => some (tp, pt, ph)
  | none =>
    match allocPage ph with
    | some (some tp, ph) =>
      some (tp, { pt with trackerHead := some tp }, (ph.set tp countIx 0).set tp nextTagIx 0)
    | _ => none

/-- `track_frame`; it panics when it needs a tracker page and there is none. -/
def trackFrame (pt : PageTable) (ph : Phys) (f : ℕ) : Option (PageTable × Phys) :=
  if pt.ownsRoot then
    match firstTracker pt ph with
    | some (tp, pt, ph) =>
      let count := (ph.page tp countIx).toNat
      if count < trackerCapacity then
        some (pt, (ph.set tp (Fin.ofNat 512 count) (BitVec.ofNat 64 f)).set tp countIx
          (BitVec.ofNat 64 (count + 1)))
      else
        -- the head is full: a new page in front of the chain
        match allocPage ph with
        | some (some new, ph) =>
          some ({ pt with trackerHead := some new },
            (((ph.set new countIx 1).set new 0 (BitVec.ofNat 64 f)).set new nextTagIx 1).set new
              nextIx (BitVec.ofNat 64 tp))
        | _ => none
    | none => none
  else some (pt, ph)

/-- `PageTable::new`. -/
def new (ph : Phys) : Option (PageTable × Phys) :=
  match allocPage ph with
  | some (some frame, ph) => some (⟨frame, none, true⟩, ph)
  | _ => none

/-- `PageTable::from_token`: a borrowed view. -/
def fromToken (ttbr : ℕ) : PageTable := ⟨ttbr / 4096, none, false⟩

/-- `PageTable::token`. -/
def token (pt : PageTable) : ℕ := pt.rootPpn * 4096

/-! ## Walking -/

/-- One level of `find_pte_create` above the last: the next table, allocated and hung in if
the descriptor is not a table.  A block descriptor is replaced as an invalid one is. -/
def nextTable (pt : PageTable) (ph : Phys) (ppn : ℕ) (idx : Index) :
    Option (Option ℕ × PageTable × Phys) :=
  let entry := ph.page ppn idx
  if !Pte.isValid entry || !Pte.isTable entry then
    match allocPage ph with
    | some (some f, ph) =>
      let entry := Pte.newTable f
      (trackFrame pt (ph.set ppn idx entry) f).map fun r => (some (Pte.ppn entry), r.1, r.2)
    | some (none, ph) => some (none, pt, ph)
    | none => none
  else some (some (Pte.ppn entry), pt, ph)

/-- The loop of `find_pte_create` over the indices that are left. -/
def descend : List Index → ℕ → PageTable → Phys →
    Option (Option (ℕ × Index) × PageTable × Phys)
  | [], _, pt, ph => some (none, pt, ph)
  | [idx], ppn, pt, ph => some (some (ppn, idx), pt, ph)
  | idx :: j :: rest, ppn, pt, ph =>
    match nextTable pt ph ppn idx with
    | some (some ppn, pt, ph) => descend (j :: rest) ppn pt ph
    | some (none, pt, ph) => some (none, pt, ph)
    | none => none

/-- `find_pte_create`: the place of the leaf descriptor of `vpn`. -/
def findPteCreate (pt : PageTable) (ph : Phys) (vpn : ℕ) :
    Option (Option (ℕ × Index) × PageTable × Phys) :=
  descend (indexes vpn) pt.rootPpn pt ph

/-- The loop of `find_pte`. -/
def find (ph : Phys) : List Index → ℕ → Option (ℕ × Index)
  | [], _ => none
  | [idx], ppn => some (ppn, idx)
  | idx :: j :: rest, ppn =>
    let entry := ph.page ppn idx
    if !Pte.isValid entry || !Pte.isTable entry then none
    else find ph (j :: rest) (Pte.ppn entry)

/-- `find_pte`. -/
def findPte (pt : PageTable) (ph : Phys) (vpn : ℕ) : Option (ℕ × Index) :=
  find ph (indexes vpn) pt.rootPpn

/-- `map`; it panics when a table cannot be allocated. -/
def map (pt : PageTable) (ph : Phys) (vpn ppn : ℕ) (flags : PTEFlags) :
    Option (PageTable × Phys) :=
  match findPteCreate pt ph vpn with
  | some (some (n, i), pt, ph) => some (pt, ph.set n i (Pte.new ppn flags))
  | _ => none

/-- `remap`; it panics when `vpn` is not mapped. -/
def remap (pt : PageTable) (ph : Phys) (vpn : ℕ) (flags : PTEFlags) : Option Phys :=
  match findPte pt ph vpn with
  | some (n, i) =>
    if Pte.isValid (ph.page n i) then some (ph.set n i (Pte.new (Pte.ppn (ph.page n i)) flags))
    else none
  | none => none

/-- `unmap`; it panics when `vpn` is not mapped. -/
def unmap (pt : PageTable) (ph : Phys) (vpn : ℕ) : Option Phys :=
  match findPte pt ph vpn with
  | some (n, i) => if Pte.isValid (ph.page n i) then some (ph.set n i 0) else none
  | none => none

end PageTable

/-! ## Loops over the user leaves -/

section Loops

variable {σ : Type*}

/-- The range `0..512` of the loops. -/
def indices : List Index := List.finRange 512

/-- The four nested loops that `free_user_data_pages` and `clone_user_range` share: visit
every EL0-accessible 2 MiB block and 4 KiB page below `root`, reading the tables as the state
has them when they are reached.  An error ends all the loops. -/
def forUserLeaves (page : σ → ℕ → Index → Word) (root : ℕ)
    (onBlock onPage : σ → List Index → Word → Except (Option σ) σ) (s : σ) :
    Except (Option σ) σ :=
  indices.foldlM (fun s l0 =>
    let l0Bits := page s root l0
    if l0Bits &&& 0b11 ≠ 0b11 then .ok s
    else indices.foldlM (fun s l1 =>
      let l1Bits := page s (Pte.ppn l0Bits) l1
      if l1Bits &&& 1 = 0 then .ok s
      else if l1Bits &&& 0b10 = 0 then .ok s
      else indices.foldlM (fun s l2 =>
        let l2Bits := page s (Pte.ppn l1Bits) l2
        if l2Bits &&& 1 = 0 then .ok s
        else if l2Bits &&& 0b10 = 0 then
          if l2Bits &&& Pte.el0Bit = 0 then .ok s else onBlock s [l0, l1, l2] l2Bits
        else indices.foldlM (fun s l3 =>
          let l3Bits := page s (Pte.ppn l2Bits) l3
          if l3Bits &&& 1 = 0 then .ok s
          else if l3Bits &&& Pte.el0Bit = 0 then .ok s
          else onPage s [l0, l1, l2, l3] l3Bits) s) s) s) s

end Loops

namespace PageTable

/-- A free inside the loops. -/
def freeLeaf (ph : Phys) (_ : List Index) (w : Word) : Except (Option Phys) Phys :=
  match freePage ph (Pte.ppn w) with
  | some ph => .ok ph
  | none => .error none

/-- `free_user_data_pages`. -/
def freeUserDataPages (root : ℕ) (ph : Phys) : Option Phys :=
  match forUserLeaves Phys.page root freeLeaf freeLeaf ph with
  | .ok ph => some ph
  | .error _ => none

/-- The loop of `drop` over the tracker chain.  The chain is in memory, so it has no more
pages than there are frames. -/
def freeTrackers : ℕ → Option ℕ → Phys → Option Phys
  | _, none, ph => some ph
  | 0, some _, _ => none
  | fuel + 1, some tp, ph => do
    let ph ← (List.range (ph.page tp countIx).toNat).foldlM (fun ph i =>
      if i < trackerCapacity then freePage ph (ph.page tp (Fin.ofNat 512 i)).toNat else none) ph
    let next := trackerNext ph tp
    let ph ← freePage ph tp
    freeTrackers fuel next ph

/-- `drop`. -/
def drop (pt : PageTable) (ph : Phys) : Option Phys :=
  if pt.ownsRoot then do
    let ph ← freeUserDataPages pt.rootPpn ph
    let ph ← freePage ph pt.rootPpn
    freeTrackers (2 ^ 36) pt.trackerHead ph
  else some ph

end PageTable

/-! ## The kernel's half of a table -/

/-- A 2 MiB identity block of kernel memory, EL1 only. -/
def kernelBlock (i : Index) : Word :=
  (BitVec.ofNat 64 (0x40000000 + i * 0x200000) &&& 0x0000ffffffe00000) ||| 2 <<< 2 ||| 1 <<< 5
    ||| 0b11 <<< 8 ||| 0b00 <<< 6 ||| 1 <<< 10 ||| 1 <<< 54 ||| 0b01

/-- `device_block` of `setup_mmu`. -/
def deviceBlock (paddr : Word) : Word :=
  (paddr &&& 0x0000ffffffe00000) ||| 0 <<< 2 ||| 1 <<< 5 ||| 0b11 <<< 8 ||| 0b00 <<< 6
    ||| 1 <<< 10 ||| 1 <<< 54 ||| 1 <<< 53 ||| 0b01

/-- `MapError`, as far as the modelled functions return it. -/
inductive MapError where
  | outOfMemory
  deriving DecidableEq

/-- A table for `create_kernel_mapped_page_table`: allocated and tracked.  When there is no
frame left the handle goes out of scope, and dropping it frees what it owns. -/
def allocTable (pt : PageTable) (ph : Phys) : Option (Except Phys (ℕ × PageTable × Phys)) :=
  match allocPage ph with
  | some (some f, ph) => (pt.trackFrame ph f).map fun r => .ok (f, r.1, r.2)
  | some (none, ph) => (pt.drop ph).map .error
  | none => none

/-- `create_kernel_mapped_page_table`. -/
def createKernelMappedPageTable (ph : Phys) : Option (Except MapError PageTable × Phys) :=
  match PageTable.new ph with
  | none => none
  | some (pt, ph) =>
  match allocTable pt ph with
  | none => none
  | some (.error ph) => some (.error .outOfMemory, ph)
  | some (.ok (l1, pt, ph)) =>
  let ph := ph.set pt.rootPpn 0 (Pte.newTable l1)
  match allocTable pt ph with
  | none => none
  | some (.error ph) => some (.error .outOfMemory, ph)
  | some (.ok (l2Lo, pt, ph)) =>
  let ph := ph.set l1 0 (Pte.newTable l2Lo)
  match allocTable pt ph with
  | none => none
  | some (.error ph) => some (.error .outOfMemory, ph)
  | some (.ok (l2Mid, pt, ph)) =>
  let ph := ph.set l1 1 (Pte.newTable l2Mid)
  let ph := ph.fill l2Mid kernelBlock
  let ph := ph.set l2Lo 0x48 (deviceBlock 0x09000000)
  let ph := ph.set l2Lo 0x50 (deviceBlock 0x0a000000)
  some (.ok pt, ph)

end QuackOS.Mm
