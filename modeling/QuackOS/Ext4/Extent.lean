import Mathlib.Data.List.Sort
import QuackOS.Ext4.Bitmap

/-!
# Extents

The records of `extent_tree.rs` and the nodes they are kept in: the 60 bytes `i_block` of an
inode and the extent blocks below it have one layout, a 12-byte header followed by 12-byte
entries, which are extents in a leaf and indices in an inner node.

* `Ext4Extent`, `Ext4ExtentIdx`, `Ext4ExtentHeader` and their byte codecs;
* `Ext4ExtentBlock.lookupExtent`, `iterAllExtents`, `insertExtent`, `initAsLeaf`
  (`block_op.rs`), and `truncateExtents` (`inode.rs`) on the root;
* what a device write leaves of a tree: `Ext4ExtentBlock.Same`.
-/

namespace QuackOS.Ext4

open Buffer

/-! ## Records -/

/-- A 16-bit field. -/
def u16At (b : Buffer) (off : ℕ) : UInt16 := UInt16.ofNat (getLe b off 2)

/-- A 32-bit field. -/
def u32At (b : Buffer) (off : ℕ) : UInt32 := UInt32.ofNat (getLe b off 4)

@[simp] theorem u16At_putLe (b : Buffer) (off : ℕ) (v : UInt16) :
    u16At (putLe b off 2 v.toNat) off = v := by
  rw [u16At, getLe_putLe, Nat.mod_eq_of_lt (by simpa using v.toNat_lt), UInt16.ofNat_toNat]

@[simp] theorem u32At_putLe (b : Buffer) (off : ℕ) (v : UInt32) :
    u32At (putLe b off 4 v.toNat) off = v := by
  rw [u32At, getLe_putLe, Nat.mod_eq_of_lt (by simpa using v.toNat_lt), UInt32.ofNat_toNat]

theorem u16At_congr {b c : Buffer} {off : ℕ} (h : ∀ k, off ≤ k → k < off + 2 → b k = c k) :
    u16At b off = u16At c off := by
  rw [u16At, u16At, getLe_congr h]

theorem u32At_congr {b c : Buffer} {off : ℕ} (h : ∀ k, off ≤ k → k < off + 4 → b k = c k) :
    u32At b off = u32At c off := by
  rw [u32At, u32At, getLe_congr h]

/-- A field read beside the one just stored. -/
theorem u16At_putLe_of_disjoint (b : Buffer) {off off' n : ℕ} (v : ℕ)
    (h : off + 2 ≤ off' ∨ off' + n ≤ off) : u16At (putLe b off' n v) off = u16At b off := by
  rw [u16At, getLe_putLe_of_disjoint b v h, u16At]

theorem u32At_putLe_of_disjoint (b : Buffer) {off off' n : ℕ} (v : ℕ)
    (h : off + 4 ≤ off' ∨ off' + n ≤ off) : u32At (putLe b off' n v) off = u32At b off := by
  rw [u32At, getLe_putLe_of_disjoint b v h, u32At]

/-- `Ext4ExtentHeader`. -/
structure Ext4ExtentHeader where
  magic : UInt16
  entries : UInt16
  max : UInt16
  depth : UInt16
  generation : UInt32
deriving DecidableEq

namespace Ext4ExtentHeader

/-- `Ext4ExtentHeader::new_root`. -/
def newRoot : Ext4ExtentHeader := ⟨0xF30A, 0, 4, 0, 0⟩

/-- The header at the start of a node. -/
def read (b : Buffer) : Ext4ExtentHeader :=
  ⟨u16At b 0, u16At b 2, u16At b 4, u16At b 6, u32At b 8⟩

/-- Store a header at the start of a node. -/
def write (h : Ext4ExtentHeader) (b : Buffer) : Buffer :=
  putLe (putLe (putLe (putLe (putLe b 0 2 h.magic.toNat) 2 2 h.entries.toNat)
    4 2 h.max.toNat) 6 2 h.depth.toNat) 8 4 h.generation.toNat

@[simp] theorem read_write (h : Ext4ExtentHeader) (b : Buffer) : read (h.write b) = h := by
  unfold read write
  simp (disch := omega) only [u16At_putLe_of_disjoint, u16At_putLe, u32At_putLe]

theorem write_of_le (h : Ext4ExtentHeader) (b : Buffer) {k : ℕ} (hk : 12 ≤ k) :
    h.write b k = b k := by
  unfold write putLe
  simp (disch := omega) only [if_neg]

theorem read_congr {b c : Buffer} (h : ∀ k < 12, b k = c k) : read b = read c := by
  unfold read
  rw [u16At_congr (b := b) (c := c) fun k _ hk => h k (by omega),
    u16At_congr (b := b) (c := c) fun k _ hk => h k (by omega),
    u16At_congr (b := b) (c := c) fun k _ hk => h k (by omega),
    u16At_congr (b := b) (c := c) fun k _ hk => h k (by omega),
    u32At_congr (b := b) (c := c) fun k _ hk => h k (by omega)]

end Ext4ExtentHeader

/-- `Ext4ExtentIdx`. -/
structure Ext4ExtentIdx where
  block : UInt32
  leafLo : UInt32
  leafHi : UInt16
  unused : UInt16
deriving DecidableEq

namespace Ext4ExtentIdx

/-- `Ext4ExtentIdx::new`. -/
def new (logicalBlock : UInt32) (physicalBlock : ℕ) : Ext4ExtentIdx :=
  ⟨logicalBlock, UInt32.ofNat physicalBlock, UInt16.ofNat (physicalBlock >>> 32), 0⟩

/-- `Ext4ExtentIdx::physical_leaf_block`. -/
def physicalLeafBlock (i : Ext4ExtentIdx) : ℕ := i.leafHi.toNat <<< 32 ||| i.leafLo.toNat

/-- The index at an offset of a node. -/
def read (b : Buffer) (off : ℕ) : Ext4ExtentIdx :=
  ⟨u32At b off, u32At b (off + 4), u16At b (off + 8), u16At b (off + 10)⟩

/-- Store an index. -/
def write (i : Ext4ExtentIdx) (b : Buffer) (off : ℕ) : Buffer :=
  putLe (putLe (putLe (putLe b off 4 i.block.toNat) (off + 4) 4 i.leafLo.toNat)
    (off + 8) 2 i.leafHi.toNat) (off + 10) 2 i.unused.toNat

@[simp] theorem read_write (i : Ext4ExtentIdx) (b : Buffer) (off : ℕ) :
    read (i.write b off) off = i := by
  unfold read write
  simp (disch := omega) only [u16At_putLe_of_disjoint, u32At_putLe_of_disjoint, u16At_putLe,
    u32At_putLe]

theorem write_of_not (i : Ext4ExtentIdx) (b : Buffer) {off k : ℕ}
    (hk : k < off ∨ off + 12 ≤ k) : i.write b off k = b k := by
  unfold write putLe
  simp (disch := omega) only [if_neg]

theorem read_congr {b c : Buffer} {off : ℕ} (h : ∀ k, off ≤ k → k < off + 12 → b k = c k) :
    read b off = read c off := by
  unfold read
  rw [u32At_congr (b := b) (c := c) fun k _ hk => h k (by omega) (by omega),
    u32At_congr (b := b) (c := c) fun k _ hk => h k (by omega) (by omega),
    u16At_congr (b := b) (c := c) fun k _ hk => h k (by omega) (by omega),
    u16At_congr (b := b) (c := c) fun k _ hk => h k (by omega) (by omega)]

@[simp] theorem physicalLeafBlock_new (l : UInt32) {p : ℕ} (hp : p < 2 ^ 48) :
    (new l p).physicalLeafBlock = p := by
  rw [physicalLeafBlock, ← Nat.shiftLeft_add_eq_or_of_lt (new l p).leafLo.toNat_lt,
    Nat.shiftLeft_eq, new]
  simp only [UInt16.toNat_ofNat', UInt32.toNat_ofNat', Nat.shiftRight_eq_div_pow]
  omega

end Ext4ExtentIdx

/-- `Ext4Extent`. -/
structure Ext4Extent where
  logicalBlock : UInt32
  len : UInt16
  startHi : UInt16
  startLo : UInt32
deriving DecidableEq

namespace Ext4Extent

/-- `Ext4Extent::new`. -/
def new (logicalBlock : UInt32) (len : UInt16) (physicalBlock : ℕ) : Ext4Extent :=
  ⟨logicalBlock, len, UInt16.ofNat (physicalBlock >>> 32), UInt32.ofNat physicalBlock⟩

/-- `Ext4Extent::physical_start_block`. -/
def physicalStartBlock (e : Ext4Extent) : ℕ := e.startHi.toNat <<< 32 ||| e.startLo.toNat

/-- The extent at an offset of a node. -/
def read (b : Buffer) (off : ℕ) : Ext4Extent :=
  ⟨u32At b off, u16At b (off + 4), u16At b (off + 6), u32At b (off + 8)⟩

/-- Store an extent. -/
def write (e : Ext4Extent) (b : Buffer) (off : ℕ) : Buffer :=
  putLe (putLe (putLe (putLe b off 4 e.logicalBlock.toNat) (off + 4) 2 e.len.toNat)
    (off + 6) 2 e.startHi.toNat) (off + 8) 4 e.startLo.toNat

@[simp] theorem read_write (e : Ext4Extent) (b : Buffer) (off : ℕ) :
    read (e.write b off) off = e := by
  unfold read write
  simp (disch := omega) only [u16At_putLe_of_disjoint, u32At_putLe_of_disjoint, u16At_putLe,
    u32At_putLe]

theorem write_of_not (e : Ext4Extent) (b : Buffer) {off k : ℕ} (hk : k < off ∨ off + 12 ≤ k) :
    e.write b off k = b k := by
  unfold write putLe
  simp (disch := omega) only [if_neg]

theorem read_congr {b c : Buffer} {off : ℕ} (h : ∀ k, off ≤ k → k < off + 12 → b k = c k) :
    read b off = read c off := by
  unfold read
  rw [u32At_congr (b := b) (c := c) fun k _ hk => h k (by omega) (by omega),
    u16At_congr (b := b) (c := c) fun k _ hk => h k (by omega) (by omega),
    u16At_congr (b := b) (c := c) fun k _ hk => h k (by omega) (by omega),
    u32At_congr (b := b) (c := c) fun k _ hk => h k (by omega) (by omega)]

theorem physicalStartBlock_eq (e : Ext4Extent) :
    e.physicalStartBlock = e.startHi.toNat * 2 ^ 32 + e.startLo.toNat := by
  rw [physicalStartBlock, ← Nat.shiftLeft_add_eq_or_of_lt e.startLo.toNat_lt,
    Nat.shiftLeft_eq]

@[simp] theorem physicalStartBlock_new (l : UInt32) (n : UInt16) {p : ℕ} (hp : p < 2 ^ 48) :
    (new l n p).physicalStartBlock = p := by
  rw [physicalStartBlock_eq, new]
  simp only [UInt16.toNat_ofNat', UInt32.toNat_ofNat', Nat.shiftRight_eq_div_pow]
  omega

/-- The logical blocks an extent covers, as the lookups compute them. -/
def covers (e : Ext4Extent) (l : UInt32) : Bool :=
  e.logicalBlock ≤ l && l < e.logicalBlock + e.len.toUInt32

/-- The physical blocks of an extent. -/
def blocks (e : Ext4Extent) : List ℕ := List.range' e.physicalStartBlock e.len.toNat

/-- An insertion of a run starting at logical block `l` and physical block `p` extends the
extent: both follow its end. -/
def mergesWith (e : Ext4Extent) (l : UInt32) (p : ℕ) : Bool :=
  l == e.logicalBlock + e.len.toUInt32 &&
    UInt32.ofNat p == UInt32.ofNat e.physicalStartBlock + e.len.toUInt32 && e.len < 32768

end Ext4Extent

/-! ## Nodes -/

namespace Ext4ExtentBlock

/-- The header of a node. -/
def extentHeader (b : Buffer) : Ext4ExtentHeader := Ext4ExtentHeader.read b

/-- The extents of a leaf. -/
def extents (b : Buffer) : List Ext4Extent :=
  (List.range (extentHeader b).entries.toNat).map fun i => Ext4Extent.read b (12 + 12 * i)

/-- The indices of an inner node. -/
def extentIdxs (b : Buffer) : List Ext4ExtentIdx :=
  (List.range (extentHeader b).entries.toNat).map fun i => Ext4ExtentIdx.read b (12 + 12 * i)

/-- Store extents in the slots from `i` on. -/
def writeExtents : Buffer → ℕ → List Ext4Extent → Buffer
  | b, _, [] => b
  | b, i, e :: es => writeExtents (e.write b (12 + 12 * i)) (i + 1) es

/-- `Ext4ExtentBlock::init_as_leaf`. -/
def initAsLeaf (es : List Ext4Extent) : Buffer :=
  let header : Ext4ExtentHeader := ⟨0xF30A, UInt16.ofNat es.length, 340, 0, 0⟩
  writeExtents (header.write fun _ => 0) 0 es

theorem length_extents (b : Buffer) : (extents b).length = (extentHeader b).entries.toNat := by
  simp [extents]

theorem writeExtents_of_lt (b : Buffer) (i : ℕ) (es : List Ext4Extent) {k : ℕ}
    (hk : k < 12 + 12 * i) : writeExtents b i es k = b k := by
  induction es generalizing b i with
  | nil => rfl
  | cons e es ih => rw [writeExtents, ih _ _ (by omega), e.write_of_not _ (Or.inl hk)]

theorem read_writeExtents (b : Buffer) (i j : ℕ) (es : List Ext4Extent) (hj : j < es.length) :
    Ext4Extent.read (writeExtents b i es) (12 + 12 * (i + j)) = es[j] := by
  induction es generalizing b i j with
  | nil => simp at hj
  | cons e es ih =>
    cases j with
    | zero =>
      rw [writeExtents, Ext4Extent.read_congr (c := e.write b (12 + 12 * i))]
      · simp
      · intro k _ hk
        exact writeExtents_of_lt _ _ _ (by omega)
    | succ j =>
      rw [writeExtents, show i + (j + 1) = i + 1 + j by omega,
        ih _ _ _ (by simpa using hj), List.getElem_cons_succ]

@[simp] theorem extentHeader_writeExtents (b : Buffer) (i : ℕ) (es : List Ext4Extent) :
    extentHeader (writeExtents b i es) = extentHeader b :=
  Ext4ExtentHeader.read_congr fun k hk => writeExtents_of_lt b i es (by omega)

/-- A node holds the extents stored in it. -/
theorem extents_writeExtents {b : Buffer} {es : List Ext4Extent}
    (h : (extentHeader b).entries.toNat = es.length) : extents (writeExtents b 0 es) = es := by
  refine List.ext_getElem (by rw [length_extents, extentHeader_writeExtents, h]) ?_
  intro j h1 h2
  have := read_writeExtents b 0 j es h2
  simpa [extents] using this

@[simp] theorem extentHeader_writeSlot (b : Buffer) (i : ℕ) (e : Ext4Extent) :
    extentHeader (e.write b (12 + 12 * i)) = extentHeader b :=
  Ext4ExtentHeader.read_congr fun k hk => e.write_of_not b (Or.inl (by omega))

/-- Rewriting one slot of a leaf. -/
theorem extents_writeSlot (b : Buffer) (i : ℕ) (e : Ext4Extent) :
    extents (e.write b (12 + 12 * i)) = (extents b).set i e := by
  refine List.ext_getElem (by simp [length_extents]) ?_
  intro j h1 h2
  rw [List.getElem_set]
  simp only [extents, List.getElem_map, List.getElem_range]
  by_cases hij : i = j
  · subst hij
    simp
  · rw [if_neg hij]
    exact Ext4Extent.read_congr fun k hk hk' => e.write_of_not b (by omega)

@[simp] theorem extentHeader_write (h : Ext4ExtentHeader) (b : Buffer) :
    extentHeader (h.write b) = h := h.read_write b

/-- Rewriting the header changes how many of the slots are in use. -/
theorem extents_write (h : Ext4ExtentHeader) (b : Buffer) :
    extents (h.write b) =
      (List.range h.entries.toNat).map fun i => Ext4Extent.read b (12 + 12 * i) := by
  unfold extents
  rw [extentHeader_write]
  refine List.map_congr_left fun i _ => ?_
  exact Ext4Extent.read_congr fun k hk _ => h.write_of_le b (by omega)

theorem extentHeader_initAsLeaf (es : List Ext4Extent) :
    extentHeader (initAsLeaf es) = ⟨0xF30A, UInt16.ofNat es.length, 340, 0, 0⟩ := by
  rw [initAsLeaf, extentHeader_writeExtents, extentHeader_write]

/-- A fresh leaf holds the extents it was made of. -/
theorem extents_initAsLeaf {es : List Ext4Extent} (h : es.length < 2 ^ 16) :
    extents (initAsLeaf es) = es := by
  refine extents_writeExtents ?_
  rw [extentHeader_write]
  simpa using Nat.mod_eq_of_lt h

theorem extentHeader_congr {b c : Buffer} (h : ∀ k < 12, b k = c k) :
    extentHeader b = extentHeader c := Ext4ExtentHeader.read_congr h

/-- The extents of a leaf depend on the slots in use only. -/
theorem extents_congr {b c : Buffer}
    (h : ∀ k < 12 + 12 * (extentHeader c).entries.toNat, b k = c k) : extents b = extents c := by
  have hheader : extentHeader b = extentHeader c := extentHeader_congr fun k hk => h k (by omega)
  unfold extents
  rw [hheader]
  refine List.map_congr_left fun i hi => ?_
  rw [List.mem_range] at hi
  exact Ext4Extent.read_congr fun k _ hk => h k (by omega)

/-- A block into which a fresh leaf was written is that leaf. -/
theorem extents_of_initAsLeaf {b : Buffer} {es : List Ext4Extent} (hlen : es.length ≤ 340)
    (h : ∀ k < 4096, b k = initAsLeaf es k) :
    (extentHeader b).depth = 0 ∧ extents b = es := by
  have hheader : extentHeader b = extentHeader (initAsLeaf es) :=
    extentHeader_congr fun k hk => h k (by omega)
  rw [extentHeader_initAsLeaf] at hheader
  refine ⟨by rw [hheader], ?_⟩
  rw [extents_congr (c := initAsLeaf es), extents_initAsLeaf (by omega)]
  intro k hk
  rw [extentHeader_initAsLeaf] at hk
  simp only [UInt16.toNat_ofNat'] at hk
  exact h k (by omega)

/-- The root a split leaves: two indices. -/
theorem extentIdxs_two {h : Ext4ExtentHeader} (b : Buffer) (i j : Ext4ExtentIdx)
    (hentries : h.entries = 2) :
    extentHeader (j.write (i.write (h.write b) 12) 24) = h ∧
      extentIdxs (j.write (i.write (h.write b) 12) 24) = [i, j] := by
  have hheader : extentHeader (j.write (i.write (h.write b) 12) 24) = h := by
    rw [extentHeader_congr (c := h.write b), extentHeader_write]
    intro k hk
    rw [j.write_of_not _ (Or.inl (by omega)), i.write_of_not _ (Or.inl (by omega))]
  refine ⟨hheader, ?_⟩
  have hfirst : Ext4ExtentIdx.read (j.write (i.write (h.write b) 12) 24) 12 = i := by
    rw [Ext4ExtentIdx.read_congr (c := i.write (h.write b) 12), Ext4ExtentIdx.read_write]
    intro k _ hk
    rw [j.write_of_not _ (Or.inl (by omega))]
  have hsecond : Ext4ExtentIdx.read (j.write (i.write (h.write b) 12) 24) 24 = j :=
    Ext4ExtentIdx.read_write ..
  unfold extentIdxs
  rw [hheader, hentries]
  simp only [show (2 : UInt16).toNat = 2 from rfl, List.range_succ, List.range_zero,
    List.nil_append, List.cons_append, List.map_cons, List.map_nil, Nat.mul_zero, Nat.add_zero,
    Nat.mul_one, hfirst, hsecond]

/-! ## Insertion and truncation -/

/-- `(*extent_ptr).len += blocks_count as u16` in slot `i`. -/
def growSlot (b : Buffer) (i : ℕ) (blocksCount : UInt32) : Buffer :=
  let e := Ext4Extent.read b (12 + 12 * i)
  { e with len := e.len + blocksCount.toUInt16 }.write b (12 + 12 * i)

/-- `Ext4ExtentBlock::insert_extent`.  `none` is the panic of a full leaf; an inner node is
left alone. -/
def insertExtent (b : Buffer) (l : UInt32) (p : ℕ) (blocksCount : UInt32) : Option Buffer :=
  let header := extentHeader b
  if header.depth = 0 then
    match (extents b).findIdx? fun e => e.mergesWith l p with
    | some i => some (growSlot b i blocksCount)
    | none =>
      if 340 ≤ header.entries.toNat then none
      else
        let pos := ((extents b).findIdx? fun e => l < e.logicalBlock).getD (extents b).length
        let es := (extents b).insertIdx pos (Ext4Extent.new l blocksCount.toUInt16 p)
        some (writeExtents ({ header with entries := header.entries + 1 }.write b) 0 es)
  else some b

/-- `Ext4InodeDisk::truncate_extents` on the root node.  A root that points to extent blocks
is left as it is. -/
def truncateExtents (b : Buffer) (newBlockCount : ℕ) : Buffer :=
  let header := extentHeader b
  if 0 < header.depth then b
  else if newBlockCount = 0 then { header with entries := 0 }.write b
  else
    let n := UInt32.ofNat newBlockCount
    match (extents b).findIdx? fun e => n ≤ e.logicalBlock with
    | none => b
    | some i =>
      let e := Ext4Extent.read b (12 + 12 * i)
      { e with len := (n - e.logicalBlock).toUInt16 }.write
        ({ header with entries := UInt16.ofNat i }.write b) (12 + 12 * i)

/-- Growing a slot lengthens its extent and leaves the others. -/
theorem extents_growSlot {b : Buffer} {i : ℕ} {e : Ext4Extent} (blocksCount : UInt32)
    (he : (extents b)[i]? = some e) :
    extents (growSlot b i blocksCount) =
      (extents b).set i { e with len := e.len + blocksCount.toUInt16 } := by
  obtain ⟨hi, hget⟩ := List.getElem?_eq_some_iff.mp he
  have hread : Ext4Extent.read b (12 + 12 * i) = e := by
    simpa [extents] using hget
  rw [growSlot, extents_writeSlot, hread]

@[simp] theorem extentHeader_growSlot (b : Buffer) (i : ℕ) (blocksCount : UInt32) :
    extentHeader (growSlot b i blocksCount) = extentHeader b := extentHeader_writeSlot ..

/-- Truncation changes the number of entries of the root and nothing else in its header. -/
theorem extentHeader_truncateExtents (b : Buffer) (n : ℕ) :
    ∃ k, extentHeader (truncateExtents b n) = { extentHeader b with entries := k } := by
  unfold truncateExtents
  dsimp only
  split_ifs
  · exact ⟨_, rfl⟩
  · exact ⟨0, by rw [extentHeader_write]⟩
  · split
    · exact ⟨_, rfl⟩
    · exact ⟨_, by rw [extentHeader_writeSlot, extentHeader_write]⟩

theorem depth_truncateExtents (b : Buffer) (n : ℕ) :
    (extentHeader (truncateExtents b n)).depth = (extentHeader b).depth := by
  obtain ⟨k, hk⟩ := extentHeader_truncateExtents b n
  rw [hk]

theorem max_truncateExtents (b : Buffer) (n : ℕ) :
    (extentHeader (truncateExtents b n)).max = (extentHeader b).max := by
  obtain ⟨k, hk⟩ := extentHeader_truncateExtents b n
  rw [hk]

/-- Truncating a leaf root keeps the extents before the first one that starts at or after
the new end. -/
theorem extents_truncateExtents {b : Buffer} (hdepth : (extentHeader b).depth = 0) (n : ℕ) :
    ∃ k ≤ (extents b).length, extents (truncateExtents b n) = (extents b).take k ∧
      ∀ e ∈ (extents b).take k, n ≠ 0 ∧ e.logicalBlock < UInt32.ofNat n := by
  have hleaf : ¬ 0 < (extentHeader b).depth := by
    rw [hdepth]
    decide
  unfold truncateExtents
  dsimp only
  rw [if_neg hleaf]
  split
  · refine ⟨0, Nat.zero_le _, ?_, by simp⟩
    rw [extents_write]
    simp
  · rename_i hn
    split
    · rename_i hnone
      refine ⟨(extents b).length, le_rfl, by rw [List.take_length], fun e he => ⟨hn, ?_⟩⟩
      rw [List.take_length] at he
      simpa using List.findIdx?_eq_none_iff.mp hnone e he
    · rename_i i hsome
      obtain ⟨hi, hge, hlt⟩ := List.findIdx?_eq_some_iff_getElem.mp hsome
      refine ⟨i, hi.le, ?_, fun e he => ⟨hn, ?_⟩⟩
      · have hentries : (UInt16.ofNat i).toNat = i := by
          have := (extentHeader b).entries.toNat_lt
          rw [length_extents] at hi
          simp only [UInt16.toNat_ofNat']
          omega
        rw [extents_writeSlot, extents_write, hentries, List.set_eq_of_length_le (by simp)]
        refine List.ext_getElem (by simpa using hi.le) fun j h1 h2 => ?_
        simp [extents]
      · obtain ⟨j, hj, rfl⟩ := List.mem_take_iff_getElem.mp he
        simpa using hlt j (by omega)

/-! ## Trees

A node of depth above zero points to the blocks of its children.  The depth is a 16-bit
field that goes down by one per level, which bounds the descent. -/

/-- Bound on the length of a path in an extent tree. -/
def maxDepth : ℕ := 2 ^ 16

theorem maxDepth_eq : maxDepth = 65534 + 2 := rfl

/-- `read_ext4_block`. -/
def readExt4Block (dev : Buffer) (blockNum blockSize : ℕ) : Buffer :=
  Buffer.read dev (blockNum * blockSize) ext4BlockSize

/-- `write_ext4_block`: only `blockSize` bytes are written. -/
def writeExt4Block (dev : Buffer) (blockNum : ℕ) (data : Buffer) (blockSize : ℕ) : Buffer :=
  Buffer.write dev (blockNum * blockSize) data blockSize

/-- `filter(|i| i.block <= l).max_by_key(|i| i.block)`: of several maximal elements the
last. -/
def lastIdx (idxs : List Ext4ExtentIdx) (l : UInt32) : Option Ext4ExtentIdx :=
  (idxs.filter fun i => i.block ≤ l).foldl
    (fun best i => match best with
      | none => some i
      | some m => if m.block ≤ i.block then some i else some m) none

section Tree

variable (dev : Buffer) (bs : ℕ)

/-- `lookup_extent`, of the inode and of an extent block alike. -/
def lookupExtent : ℕ → Buffer → UInt32 → Option Ext4Extent
  | 0, _, _ => none
  | fuel + 1, b, l =>
    if (extentHeader b).depth = 0 then (extents b).find? fun e => e.covers l
    else
      match lastIdx (extentIdxs b) l with
      | some idx => lookupExtent fuel (readExt4Block dev idx.physicalLeafBlock bs) l
      | none => none

/-- `iter_all_extents`, of the inode and of an extent block alike. -/
def iterAllExtents : ℕ → Buffer → List Ext4Extent
  | 0, _ => []
  | fuel + 1, b =>
    if (extentHeader b).depth = 0 then extents b
    else (extentIdxs b).flatMap fun idx =>
      iterAllExtents fuel (readExt4Block dev idx.physicalLeafBlock bs)

/-- The blocks the nodes below a node are kept in. -/
def nodeBlocks : ℕ → Buffer → List ℕ
  | 0, _ => []
  | fuel + 1, b =>
    if (extentHeader b).depth = 0 then []
    else (extentIdxs b).flatMap fun idx =>
      idx.physicalLeafBlock :: nodeBlocks fuel (readExt4Block dev idx.physicalLeafBlock bs)

variable {dev bs}

theorem iterAllExtents_leaf {fuel : ℕ} {b : Buffer} (h : (extentHeader b).depth = 0) :
    iterAllExtents dev bs (fuel + 1) b = extents b := by
  rw [iterAllExtents, if_pos h]

theorem nodeBlocks_leaf {fuel : ℕ} {b : Buffer} (h : (extentHeader b).depth = 0) :
    nodeBlocks dev bs (fuel + 1) b = [] := by
  rw [nodeBlocks, if_pos h]

theorem lookupExtent_leaf {fuel : ℕ} {b : Buffer} (h : (extentHeader b).depth = 0) (l : UInt32) :
    lookupExtent dev bs (fuel + 1) b l = (extents b).find? fun e => e.covers l := by
  rw [lookupExtent, if_pos h]

/-- The tree below a root with two leaves. -/
theorem tree_two {fuel : ℕ} {b : Buffer} {i j : Ext4ExtentIdx}
    (h : (extentHeader b).depth ≠ 0) (hidxs : extentIdxs b = [i, j])
    (hi : (extentHeader (readExt4Block dev i.physicalLeafBlock bs)).depth = 0)
    (hj : (extentHeader (readExt4Block dev j.physicalLeafBlock bs)).depth = 0) :
    iterAllExtents dev bs (fuel + 2) b =
        extents (readExt4Block dev i.physicalLeafBlock bs) ++
          extents (readExt4Block dev j.physicalLeafBlock bs) ∧
      nodeBlocks dev bs (fuel + 2) b = [i.physicalLeafBlock, j.physicalLeafBlock] := by
  constructor
  · rw [iterAllExtents, if_neg h, hidxs]
    simp only [List.flatMap_cons, List.flatMap_nil, List.append_nil, iterAllExtents_leaf hi,
      iterAllExtents_leaf hj]
  · rw [nodeBlocks, if_neg h, hidxs]
    simp only [List.flatMap_cons, List.flatMap_nil, List.append_nil, nodeBlocks_leaf hi,
      nodeBlocks_leaf hj, List.cons_append, List.nil_append]

theorem lastIdx_mem {idxs : List Ext4ExtentIdx} {l : UInt32} {idx : Ext4ExtentIdx}
    (h : lastIdx idxs l = some idx) : idx ∈ idxs := by
  have hfold : ∀ (is : List Ext4ExtentIdx) (best : Option Ext4ExtentIdx),
      is.foldl (fun best i => match best with
        | none => some i
        | some m => if m.block ≤ i.block then some i else some m) best = some idx →
      idx ∈ is ∨ best = some idx := by
    intro is
    induction is with
    | nil => exact fun best hb => Or.inr hb
    | cons i is ih =>
      intro best hb
      rcases ih _ hb with hmem | hbest
      · exact Or.inl (List.mem_cons_of_mem _ hmem)
      · cases best with
        | none => cases hbest; exact Or.inl (List.mem_cons_self ..)
        | some m =>
          simp only at hbest
          split at hbest
          · cases hbest; exact Or.inl (List.mem_cons_self ..)
          · exact Or.inr hbest
  rcases hfold _ _ h with hmem | hnone
  · exact List.mem_of_mem_filter hmem
  · cases hnone

/-- What a lookup finds is an extent of the tree that covers the block. -/
theorem lookupExtent_mem {fuel : ℕ} {b : Buffer} {l : UInt32} {e : Ext4Extent}
    (h : lookupExtent dev bs fuel b l = some e) :
    e ∈ iterAllExtents dev bs fuel b ∧ e.covers l = true := by
  induction fuel generalizing b with
  | zero => cases h
  | succ fuel ih =>
    unfold lookupExtent at h
    unfold iterAllExtents
    split at h
    · rename_i hleaf
      rw [if_pos hleaf]
      exact ⟨List.mem_of_find?_eq_some h, List.find?_some (p := fun e : Ext4Extent => e.covers l) h⟩
    · rename_i hinner
      rw [if_neg hinner]
      split at h
      · rename_i idx hidx
        obtain ⟨hmem, hcov⟩ := ih h
        exact ⟨List.mem_flatMap.mpr ⟨idx, lastIdx_mem hidx, hmem⟩, hcov⟩
      · cases h

/-- **Frame rule for trees.**  A device that agrees on the blocks of the nodes holds the
same tree. -/
theorem tree_congr {dev' : Buffer} {fuel : ℕ} {b : Buffer}
    (h : ∀ x ∈ nodeBlocks dev bs fuel b, readExt4Block dev' x bs = readExt4Block dev x bs) :
    iterAllExtents dev' bs fuel b = iterAllExtents dev bs fuel b ∧
      nodeBlocks dev' bs fuel b = nodeBlocks dev bs fuel b ∧
      ∀ l, lookupExtent dev' bs fuel b l = lookupExtent dev bs fuel b l := by
  induction fuel generalizing b with
  | zero => exact ⟨rfl, rfl, fun _ => rfl⟩
  | succ fuel ih =>
    by_cases hleaf : (extentHeader b).depth = 0
    · simp only [iterAllExtents, nodeBlocks, lookupExtent, if_pos hleaf, implies_true, and_self]
    · simp only [nodeBlocks, if_neg hleaf, List.mem_flatMap] at h
      have hchild : ∀ idx ∈ extentIdxs b, readExt4Block dev' idx.physicalLeafBlock bs =
          readExt4Block dev idx.physicalLeafBlock bs :=
        fun idx hidx => h _ ⟨idx, hidx, List.mem_cons_self ..⟩
      have hrec : ∀ idx ∈ extentIdxs b, _ := fun idx hidx =>
        ih (b := readExt4Block dev idx.physicalLeafBlock bs)
          fun x hx => h x ⟨idx, hidx, List.mem_cons_of_mem _ hx⟩
      simp only [iterAllExtents, nodeBlocks, lookupExtent, if_neg hleaf]
      refine ⟨?_, ?_, fun l => ?_⟩
      · refine List.flatMap_congr fun idx hidx => ?_
        rw [hchild idx hidx, (hrec idx hidx).1]
      · refine List.flatMap_congr fun idx hidx => ?_
        rw [hchild idx hidx, (hrec idx hidx).2.1]
      · cases hidx : lastIdx (extentIdxs b) l with
        | none => rfl
        | some idx =>
          have hmem := lastIdx_mem hidx
          simp only [hchild idx hmem, (hrec idx hmem).2.2]

end Tree

end Ext4ExtentBlock

end QuackOS.Ext4
