import QuackOS.Lib.Cursor
import QuackOS.Lib.Paths
import QuackOS.Lib.Run
import QuackOS.Lib.Slice
import QuackOS.Linux.Task

/-!
# The working directory

`sys_chdir` of `liblinux/src/fs.rs` and `sys_getcwd` of `liblinux/src/misc.rs`, with what `_start`
of `liblinux/src/main.rs` does about the working directory.  It is kept twice, in the task and in
`BootInfo`, as a string in an array of 256 bytes.

* `scan_spec`, `rebuild_spec`, `sysChdir_spec` — the stack of components is the path's, as far as
  its 64 places go;
* `Settled`, `settled_step` — what every call keeps;
* `chdir_canonicalises` — **after any calls, a call goes to the normal form of the joined path, if
  the joined path has at most 255 bytes and at most 64 components ever stand at once**;
* `chdir_drops_component` — a 65th component is dropped, and the call returns 0.
-/

namespace QuackOS.Linux.Chdir

open Bytes Paths Slice

/-- The size of the arrays for paths. -/
def cwdSize : ℕ := 256

/-- The places for components. -/
def maxDepth : ℕ := 64

def slash : UInt8 := 0x2F
def dot : UInt8 := 0x2E


/-- The working directory in the task, `task.cwd`, and in `BootInfo`. -/
structure Cwd where
  cwd : List UInt8
  boot : List UInt8
  deriving DecidableEq

/-- `[0u8; 256]` with some bytes copied to its front. -/
def zeroed (bs : List UInt8) : List UInt8 := bs ++ List.replicate (cwdSize - bs.length) 0

/-- Bytes and a NUL written to the front of an array. -/
def putString (array bs : List UInt8) : List UInt8 := bs ++ 0 :: array.drop (bs.length + 1)

/-- The loop that fills `path`. -/
def readPath (mem : Mem) (pathPtr : Word) : List UInt8 := untilNul (copyFrom mem pathPtr cwdSize)

/-- `array[wp..wp + bs.len()].copy_from_slice(bs); wp += bs.len()`. -/
def pushSlice (bs : List UInt8) (array : Cursor UInt8) : Except Panic (Cursor UInt8) :=
  bs.foldlM (fun array b => array.push .outOfRange b) array

/-- A slash, unless `raw[..wp]` is empty or ends in one. -/
def addSlash (raw : Cursor UInt8) : Except Panic (Cursor UInt8) :=
  if 0 < raw.len ∧ raw.items.getLast? ≠ some slash then raw.push .outOfRange slash else .ok raw

/-- The raw absolute path. -/
def rawPath (cwd path : List UInt8) : Except Panic (Cursor UInt8) := do
  let raw := Cursor.blank cwdSize 0
  if path.head? ≠ some slash then
    let cwdEnd := (cwd.idxOf? 0).getD cwdSize
    let raw ← pushSlice (cwd.take (min cwdEnd 254)) raw
    let raw ← addSlash raw
    pushSlice (path.take (min path.length (255 - raw.len))) raw
  else pushSlice (path.take (min path.length 255)) raw

/-- `while pos < raw_len && f(raw[pos]) { pos += 1 }`. -/
def skip (f : UInt8 → Bool) (raw : List UInt8) (pos : ℕ) : ℕ :=
  pos + ((raw.drop pos).takeWhile f).length

/-- One component, and the arrays `comp_off` and `comp_len` up to `depth`. -/
def putComp (raw : List UInt8) (start stop : ℕ) (comps : Cursor (ℕ × ℕ)) :
    Except Panic (Cursor (ℕ × ℕ)) :=
  let comp := (raw.drop start).take (stop - start)
  if comp = [dot] then return comps
  else if comp = [dot, dot] then return if 0 < comps.len then comps.pop else comps
  else if comps.len < maxDepth then comps.push .outOfRange (start, comp.length)
  else return comps

/-- The loop that takes a path apart, for as many rounds. -/
def scan (raw : List UInt8) : ℕ → ℕ → Cursor (ℕ × ℕ) → Except Panic (Cursor (ℕ × ℕ))
  | 0, _, comps => return comps
  | fuel + 1, pos, comps =>
    if pos < raw.length then
      let start := skip (· == slash) raw pos
      if raw.length ≤ start then return comps
      else do
        let stop := skip (· != slash) raw start
        let comps ← putComp raw start stop comps
        scan raw fuel stop comps
    else return comps

/-- A component copied behind a slash. -/
def copyComp (raw : List UInt8) (cwd : Cursor UInt8) (c : ℕ × ℕ) : Except Panic (Cursor UInt8) := do
  let cwd ← cwd.push .outOfRange slash
  if 255 < cwd.len then .error .underflow
  else
    let cl := min c.2 (255 - cwd.len)
    pushSlice ((raw.drop c.1).take cl) cwd

/-- The path with the components that are left. -/
def rebuild (raw : List UInt8) (comps : List (ℕ × ℕ)) : Except Panic (Cursor UInt8) :=
  let cwd := Cursor.blank cwdSize 0
  if comps.length = 0 then cwd.push .outOfRange slash
  else comps.foldlM (copyComp raw) cwd

/-- `sys_chdir`. -/
def sysChdir (s : Cwd) (mem : Mem) (pathPtr : Word) : Except Panic (Word × Cwd) := do
  let path := readPath mem pathPtr
  if path.length = 0 then return (0, s)
  else
    let raw ← rawPath s.cwd path
    let comps ← scan raw.items raw.len 0 (Cursor.blank maxDepth (0, 0))
    let cwd ← rebuild raw.items comps.items
    return (0, ⟨zeroed cwd.items, putString s.boot cwd.items⟩)

/-- `sys_getcwd`; what it returns, and user memory behind it. -/
def sysGetcwd (s : Cwd) (mem : Mem) (buf : Word) (size : ℕ) : Word × Mem :=
  if size = 0 then (Errno.word .EINVAL, mem)
  else
    let cwdLen := (s.cwd.idxOf? 0).getD 0
    if size < cwdLen + 1 then (errnoWord erange, mem)
    else
      let copy := min cwdLen (size - 1)
      (BitVec.ofNat 64 (cwdLen + 1), if buf ≠ 0 then copyOut mem buf (s.cwd.take copy ++ [0]) else mem)

/-- What `_start` makes of the directory in `BootInfo`. -/
def start (boot : List UInt8) : Cwd :=
  let cwdLen := (boot.idxOf? 0).getD 0
  let cwd := if 0 < cwdLen then zeroed (boot.take (min cwdLen 255)) else zeroed [slash]
  let cwdEnd := (cwd.idxOf? 0).getD 0
  ⟨cwd, if 0 < cwdEnd then putString boot (cwd.take cwdEnd) else boot⟩

/-- The first process. -/
def Cwd.init : Cwd := start (zeroed [slash])

/-- `sys_execve` puts the task's directory into the `BootInfo` that the new image starts with. -/
def execve (s : Cwd) : Cwd := start s.cwd

/-- A call of `sys_chdir`: a NUL-terminated path in user memory. -/
structure ChdirCall where
  mem : Mem
  pathPtr : Word
  path : List UInt8
  terminated : copyFrom mem pathPtr (path.length + 1) = path ++ [0]
  noNul : (0 : UInt8) ∉ path

/-- What a process does that has to do with its directory. -/
inductive Act
  | chdir (call : ChdirCall)
  | execve

def step (s : Cwd) : Act → Except Panic Cwd
  | .chdir call => (sysChdir s call.mem call.pathPtr).map Prod.snd
  | .execve => return execve s

/-! ## What a call should do -/

/-- The path joined to the working directory. -/
def joined (s : Cwd) (path : List UInt8) : List UInt8 := join slash (untilNul s.cwd) path

/-- The lexical normal form of the joined path. -/
def target (s : Cwd) (path : List UInt8) : List UInt8 := normalise slash dot (joined s path)

/-- An array of 256 bytes with a NUL-terminated string in it. -/
structure HoldsString (array str : List UInt8) : Prop where
  length : array.length = cwdSize
  untilNul : untilNul array = str
  fits : str.length < cwdSize

/-- What a call that returns `ret` and leaves `s'` does as it should.  When it returns 0, the normal
form of the joined path is in both arrays, is what `sys_getcwd` gives out, and is left as it is by
one more call; a normal form that does not fit is rejected. -/
structure Canonicalises (s : Cwd) (path : List UInt8) (ret : Word) (s' : Cwd) : Prop where
  task : ret = 0 → HoldsString s'.cwd (target s path)
  bootInfo : ret = 0 → HoldsString s'.boot (target s path)
  canonical : ret = 0 → IsCanonical slash dot (untilNul s'.cwd)
  getcwd : ret = 0 → ∀ mem buf size, buf ≠ 0 → (target s path).length < size →
    (sysGetcwd s' mem buf size).1 = BitVec.ofNat 64 ((target s path).length + 1) ∧
    copyFrom (sysGetcwd s' mem buf size).2 buf ((target s path).length + 1) = target s path ++ [0]
  again : ret = 0 → ∀ call : ChdirCall, call.path = untilNul s'.cwd →
    sysChdir s' call.mem call.pathPtr = .ok (0, s')
  rejects : cwdSize ≤ (target s path).length → ret ≠ 0 ∧ s' = s

/-- The joined path fits the array for it with a NUL behind it, and the components that stand while
it is resolved fit their places. -/
def Fits (s : Cwd) (path : List UInt8) : Prop :=
  path = [] ∨ (joined s path).length < cwdSize ∧
    ∀ k, (resolveAll dot [] ((components slash (joined s path)).take k)).length ≤ maxDepth

/-! ## The loops -/

section Loops

variable {raw : List UInt8} {start stop : ℕ} {stack : List (List UInt8)} {comps : Cursor (ℕ × ℕ)}

/-- `&raw[off..off + len]`. -/
def component (raw : List UInt8) (c : ℕ × ℕ) : List UInt8 := (raw.drop c.1).take c.2

/-- The arrays of offsets and lengths are those of some components of the path. -/
structure Stands (raw : List UInt8) (stack : List (List UInt8)) (comps : Cursor (ℕ × ℕ)) :
    Prop where
  shows : comps.Shows maxDepth comps.items
  items : comps.items.map (component raw) = stack

theorem drop_skip (f : UInt8 → Bool) (raw : List UInt8) (pos : ℕ) :
    raw.drop (skip f raw pos) = (raw.drop pos).dropWhile f :=
  calc raw.drop (skip f raw pos)
      = ((raw.drop pos).takeWhile f ++ (raw.drop pos).dropWhile f).drop
          ((raw.drop pos).takeWhile f).length := by
        rw [List.takeWhile_append_dropWhile, skip, List.drop_drop]
    _ = (raw.drop pos).dropWhile f := List.drop_left ..

theorem take_skip (f : UInt8 → Bool) (raw : List UInt8) (pos : ℕ) :
    (raw.drop pos).take (skip f raw pos - pos) = (raw.drop pos).takeWhile f :=
  calc (raw.drop pos).take (skip f raw pos - pos)
      = ((raw.drop pos).takeWhile f ++ (raw.drop pos).dropWhile f).take
          ((raw.drop pos).takeWhile f).length := by
        rw [List.takeWhile_append_dropWhile, skip, Nat.add_sub_cancel_left]
    _ = (raw.drop pos).takeWhile f := List.take_left ..

theorem pushSlice_ok {n : ℕ} {xs bs : List UInt8} {array : Cursor UInt8} (h : array.Shows n xs)
    (hroom : xs.length + bs.length ≤ n) :
    ∃ array', pushSlice bs array = .ok array' ∧ array'.Shows n (xs ++ bs) :=
  h.pushAll hroom Panic.outOfRange

/-- One component is put on the stack as far as there are places. -/
theorem putComp_spec (h : Stands raw stack comps) :
    ∃ comps', putComp raw start stop comps = .ok comps' ∧
      Stands raw (resolveWithin dot maxDepth stack ((raw.drop start).take (stop - start))) comps' := by
  obtain ⟨hshows, hitems⟩ := h
  have hdepth : stack.length = comps.len := by rw [← hitems, List.length_map, hshows.len]
  unfold putComp resolveWithin
  generalize hcomp : (raw.drop start).take (stop - start) = comp
  dsimp only
  by_cases hdot : comp = [dot]
  · rw [if_pos hdot, if_pos hdot]
    exact ⟨comps, rfl, hshows, hitems⟩
  rw [if_neg hdot, if_neg hdot]
  by_cases hdotdot : comp = [dot, dot]
  · rw [if_pos hdotdot, if_pos hdotdot]
    -- with no component there, there is none to take away
    have hpop : (if 0 < comps.len then comps.pop else comps) = comps.pop := by
      split
      · rfl
      · rename_i hzero
        rw [Cursor.pop, Nat.eq_zero_of_not_pos hzero]
        exact congrArg (Cursor.mk comps.buf) (Nat.eq_zero_of_not_pos hzero)
    have hpopped := hshows.pop
    rw [hpop]
    refine ⟨comps.pop, rfl, by rwa [hpopped.items], ?_⟩
    rw [hpopped.items, List.map_dropLast, hitems]
  rw [if_neg hdotdot, if_neg hdotdot, hdepth]
  by_cases hroom : comps.len < maxDepth
  · rw [if_pos hroom, if_pos hroom]
    obtain ⟨comps', hpush, hpushed⟩ :=
      hshows.push (hshows.len ▸ hroom) Panic.outOfRange (start, comp.length)
    refine ⟨comps', hpush, by rwa [hpushed.items], ?_⟩
    have hone : component raw (start, comp.length) = comp := by
      rw [component, ← hcomp, List.length_take]
      exact List.take_eq_take_min.symm
    rw [hpushed.items, List.map_append, hitems, List.map_singleton, hone]
  · rw [if_neg hroom, if_neg hroom]
    exact ⟨comps, rfl, hshows, hitems⟩

/-- **The loop resolves the components of the rest of the path**, on a stack of 64. -/
theorem scan_spec (fuel pos : ℕ) (hfuel : raw.length ≤ pos + fuel) (h : Stands raw stack comps) :
    ∃ comps', scan raw fuel pos comps = .ok comps' ∧
      Stands raw (resolveAllWithin dot maxDepth stack (components slash (raw.drop pos))) comps' := by
  induction fuel generalizing pos stack comps with
  | zero =>
    rw [List.drop_of_length_le (show raw.length ≤ pos from hfuel), components_nil]
    exact ⟨comps, rfl, h⟩
  | succ fuel ih =>
    rw [scan]
    by_cases hpos : pos < raw.length
    · rw [if_pos hpos, ← components_dropWhile, ← drop_skip]
      have hstart : pos ≤ skip (· == slash) raw pos := Nat.le_add_right _ _
      generalize hskip : skip (· == slash) raw pos = start at hstart ⊢
      dsimp only
      by_cases hend : raw.length ≤ start
      · rw [if_pos hend, List.drop_of_length_le hend, components_nil]
        exact ⟨comps, rfl, h⟩
      · rw [if_neg hend]
        obtain ⟨x, rest, hrest⟩ : ∃ x rest, raw.drop start = x :: rest :=
          List.exists_cons_of_ne_nil (by rwa [Ne, List.drop_eq_nil_iff])
        have hx : x ≠ slash := by
          have hhead := List.head?_dropWhile_not (· == slash) (raw.drop pos)
          rw [← drop_skip, hskip, hrest] at hhead
          simpa using hhead
        obtain ⟨comps₁, hput, h₁⟩ :=
          @putComp_spec raw start (skip (· != slash) raw start) stack comps h
        have hstop : start < skip (· != slash) raw start := by
          rw [skip, hrest, List.takeWhile_cons_of_pos (by simpa using hx), List.length_cons]
          omega
        obtain ⟨comps', hscan, h'⟩ := ih (skip (· != slash) raw start) (by omega) h₁
        refine ⟨comps', ?_, ?_⟩
        · rw [hput]
          exact hscan
        · rw [take_skip, drop_skip, hrest] at h'
          rw [hrest, components_takeWhile hx]
          exact h'
    · rw [if_neg hpos, List.drop_of_length_le (Nat.le_of_not_lt hpos), components_nil]
      exact ⟨comps, rfl, h⟩

theorem copyComp_ok {done : List UInt8} {cwd : Cursor UInt8} (h : cwd.Shows cwdSize done)
    (c : ℕ × ℕ) (hfit : done.length + ((component raw c).length + 1) ≤ 255) :
    ∃ cwd', copyComp raw cwd c = .ok cwd' ∧
      cwd'.Shows cwdSize (done ++ slash :: component raw c) := by
  obtain ⟨cwd₁, hpush, h₁⟩ := h.push (by rw [cwdSize]; omega) Panic.outOfRange slash
  have hlen : cwd₁.len = done.length + 1 := by
    rw [h₁.len, List.length_append, List.length_singleton]
  have hall : (raw.drop c.1).take (min c.2 (255 - cwd₁.len)) = component raw c := by
    rw [Nat.min_comm, ← List.take_take]
    exact List.take_of_length_le (by rw [← component]; omega)
  have hroom : (done ++ [slash]).length + (component raw c).length ≤ cwdSize := by
    rw [List.length_append, List.length_singleton, cwdSize]
    omega
  obtain ⟨cwd', hcopy, h'⟩ := pushSlice_ok h₁ hroom
  refine ⟨cwd', ?_, by rwa [List.append_assoc] at h'⟩
  rw [copyComp, hpush]
  change (if 255 < cwd₁.len then _ else _) = _
  rw [if_neg (by omega), hall]
  exact hcopy

theorem copyComps_ok (cs : List (ℕ × ℕ)) {done : List UInt8} {cwd : Cursor UInt8}
    (h : cwd.Shows cwdSize done) (hfit : done.length + weight (cs.map (component raw)) ≤ 255) :
    ∃ cwd', cs.foldlM (copyComp raw) cwd = .ok cwd' ∧
      cwd'.Shows cwdSize (done ++ (cs.map (component raw)).flatMap (slash :: ·)) := by
  induction cs generalizing done cwd with
  | nil => exact ⟨cwd, rfl, by rwa [List.map_nil, List.flatMap_nil, List.append_nil]⟩
  | cons c cs ih =>
    have hweight : weight ((c :: cs).map (component raw)) =
        (component raw c).length + 1 + weight (cs.map (component raw)) := rfl
    obtain ⟨cwd₁, hcopy, h₁⟩ := @copyComp_ok raw done cwd h c (by omega)
    obtain ⟨cwd', hrest, h'⟩ := ih h₁ (by
      rw [List.length_append, List.length_cons]
      omega)
    refine ⟨cwd', ?_, ?_⟩
    · rw [List.foldlM_cons, hcopy]
      exact hrest
    · rw [List.map_cons, List.flatMap_cons]
      rwa [List.append_assoc] at h'

/-- **The rebuilt path is the one with the components that stand**, when it fits. -/
theorem rebuild_spec (h : Stands raw stack comps) (hfit : weight stack ≤ 255) :
    ∃ cwd, rebuild raw comps.items = .ok cwd ∧ cwd.Shows cwdSize (render slash stack) := by
  have hblank := Cursor.shows_blank cwdSize (0 : UInt8)
  have hnone : comps.items.length = 0 ↔ stack.isEmpty := by
    rw [← h.items, List.isEmpty_iff_length_eq_zero, List.length_map]
  rw [rebuild, render]
  by_cases hempty : stack.isEmpty
  · rw [if_pos (hnone.mpr hempty), if_pos hempty]
    exact hblank.push (by decide) Panic.outOfRange slash
  · rw [if_neg (mt hnone.mp hempty), if_neg hempty]
    obtain ⟨cwd, hcopy, hcwd⟩ := copyComps_ok comps.items hblank (by
      rw [h.items, List.length_nil]
      omega)
    rw [h.items] at hcwd
    exact ⟨cwd, hcopy, hcwd⟩

end Loops

/-! ## Strings in arrays -/

section Strings

variable {array str path : List UInt8}

theorem HoldsString.noNul (h : HoldsString array str) : (0 : UInt8) ∉ str := by
  rw [← h.untilNul]
  exact zero_not_mem_untilNul array

theorem HoldsString.split (h : HoldsString array str) : ∃ rest, array = str ++ 0 :: rest := by
  have hsplit : str ++ array.dropWhile (· != 0) = array := by
    rw [← h.untilNul]
    exact List.takeWhile_append_dropWhile
  cases hrest : array.dropWhile (· != 0) with
  | nil =>
    have hlen := congrArg List.length hsplit
    rw [hrest, List.append_nil, h.length] at hlen
    exact absurd h.fits (by omega)
  | cons b rest =>
    have hb := List.head?_dropWhile_not (· != 0) array
    rw [hrest] at hb
    refine ⟨rest, ?_⟩
    rw [← hsplit, hrest, show b = 0 by simpa using hb]

theorem holdsString_of_split {rest : List UInt8} (hnul : (0 : UInt8) ∉ str)
    (hlen : (str ++ 0 :: rest).length = cwdSize) : HoldsString (str ++ 0 :: rest) str := by
  refine ⟨hlen, ?_, ?_⟩
  · exact untilNul_append_nul hnul rest
  · rw [List.length_append, List.length_cons] at hlen
    omega

theorem holdsString_zeroed (hnul : (0 : UInt8) ∉ str) (hfit : str.length < cwdSize) :
    HoldsString (zeroed str) str := by
  obtain ⟨k, hk⟩ := Nat.exists_eq_add_of_lt hfit
  have hpad : zeroed str = str ++ 0 :: List.replicate k 0 := by
    rw [zeroed, hk, show str.length + k + 1 - str.length = k + 1 by omega, List.replicate_succ]
  rw [hpad]
  refine holdsString_of_split hnul ?_
  rw [List.length_append, List.length_cons, List.length_replicate]
  omega

theorem holdsString_putString (hlen : array.length = cwdSize) (hnul : (0 : UInt8) ∉ str)
    (hfit : str.length < cwdSize) : HoldsString (putString array str) str := by
  refine holdsString_of_split hnul ?_
  rw [List.length_append, List.length_cons, List.length_drop]
  omega

/-- A string written over itself. -/
theorem HoldsString.putString (h : HoldsString array str) : putString array str = array := by
  obtain ⟨rest, rfl⟩ := h.split
  rw [Chdir.putString, ← List.drop_drop, List.drop_left]
  rfl

/-- The search for the NUL. -/
theorem HoldsString.idxOf (h : HoldsString array str) : array.idxOf? 0 = some str.length := by
  obtain ⟨rest, rfl⟩ := h.split
  refine List.idxOf?_eq_some_iff.mpr ⟨by simp, by simp, fun j hj => ?_⟩
  rw [List.getElem_append_left hj]
  exact fun hzero => h.noNul (hzero ▸ List.getElem_mem hj)

theorem HoldsString.take (h : HoldsString array str) : array.take str.length = str := by
  obtain ⟨rest, rfl⟩ := h.split
  exact List.take_left ..

theorem take_copyFrom (mem : Mem) (a : Word) {k n : ℕ} (h : k ≤ n) :
    (copyFrom mem a n).take k = copyFrom mem a k := by
  rw [copyFrom, copyFrom, copyIn, copyIn, ← List.map_take, ← List.map_take, List.take_range,
    Nat.min_eq_left h]

/-- The path of a call as far as it is read. -/
theorem readPath_eq (call : ChdirCall) :
    readPath call.mem call.pathPtr = call.path.take cwdSize := by
  rw [readPath]
  by_cases hlong : cwdSize ≤ call.path.length
  · have hall : copyFrom call.mem call.pathPtr cwdSize = call.path.take cwdSize := by
      rw [← take_copyFrom _ _ (Nat.le_succ_of_le hlong), call.terminated,
        List.take_append_of_le_length hlong]
    rw [hall]
    exact untilNul_eq_self fun h => call.noNul (List.mem_of_mem_take h)
  · have hshort : call.path.length + 1 ≤ cwdSize := by omega
    have hsplit := List.take_append_drop (call.path.length + 1)
      (copyFrom call.mem call.pathPtr cwdSize)
    rw [take_copyFrom _ _ hshort, call.terminated, List.append_assoc, List.singleton_append] at hsplit
    rw [← hsplit, untilNul_append_nul call.noNul, List.take_of_length_le (by omega)]

end Strings

/-! ## The raw path -/

section Raw

variable {dir path cwd : List UInt8}

/-- The directory with a slash behind it, as far as it is copied. -/
def front (dir : List UInt8) : List UInt8 :=
  let dir := dir.take 254
  if dir.getLast? = some slash then dir else dir ++ [slash]

/-- The joined path as far as there is room for it. -/
def cutPath (dir path : List UInt8) : List UInt8 :=
  if path.head? = some slash then path.take 255
  else front dir ++ path.take (255 - (front dir).length)

theorem length_front (dir : List UInt8) : (front dir).length ≤ 255 := by
  have hdir : (dir.take 254).length ≤ 254 := List.length_take_le ..
  rw [front]
  split
  · omega
  · rw [List.length_append, List.length_singleton]
    omega

theorem mem_front {b : UInt8} (h : b ∈ front dir) : b = slash ∨ b ∈ dir := by
  rw [front] at h
  split at h
  · exact .inr (List.mem_of_mem_take h)
  · rcases List.mem_append.mp h with h | h
    · exact .inr (List.mem_of_mem_take h)
    · exact .inl (List.mem_singleton.mp h)

theorem length_cutPath (dir path : List UInt8) : (cutPath dir path).length ≤ 255 := by
  have hfront := length_front dir
  rw [cutPath]
  split
  · exact List.length_take_le ..
  · rw [List.length_append, List.length_take]
    omega

theorem head_cutPath (hdir : dir.head? = some slash) (path : List UInt8) :
    (cutPath dir path).head? = some slash := by
  obtain ⟨rest, rfl⟩ : ∃ rest, dir = slash :: rest := List.head?_eq_some_iff.mp hdir
  rw [cutPath]
  split
  · rename_i habs
    rw [List.head?_take, habs]
    rfl
  · rw [front, List.take_succ_cons]
    split <;> rfl

theorem noNul_cutPath (hdir : (0 : UInt8) ∉ dir) (hpath : (0 : UInt8) ∉ path) :
    (0 : UInt8) ∉ cutPath dir path := by
  intro h
  rw [cutPath] at h
  split at h
  · exact hpath (List.mem_of_mem_take h)
  · rcases List.mem_append.mp h with h | h
    · rcases mem_front h with h | h
      · exact absurd h (by decide)
      · exact hdir h
    · exact hpath (List.mem_of_mem_take h)

/-- What is read of a path that is too long is enough. -/
theorem cutPath_take (dir path : List UInt8) :
    cutPath dir (path.take cwdSize) = cutPath dir path := by
  have hhead : (path.take cwdSize).head? = path.head? := by rw [List.head?_take, if_neg (by decide)]
  rw [cutPath, cutPath, hhead, List.take_take, List.take_take, cwdSize, Nat.min_eq_left (by omega),
    Nat.min_eq_left (by omega)]

/-- A joined path that fits is not cut. -/
theorem cutPath_eq (hne : path ≠ []) (hfit : (join slash dir path).length < cwdSize) :
    cutPath dir path = join slash dir path := by
  have hpath : 0 < path.length := List.length_pos_iff.mpr hne
  rw [join, cwdSize] at hfit
  rw [cutPath, join]
  split_ifs at hfit ⊢ with habs hlast
  · exact List.take_of_length_le (by omega)
  · rw [List.length_append] at hfit
    have hfront : front dir = dir := by
      rw [front, List.take_of_length_le (by omega), if_pos hlast]
    rw [hfront, List.take_of_length_le (by omega)]
  · rw [List.length_append, List.length_cons] at hfit
    have hfront : front dir = dir ++ [slash] := by
      rw [front, List.take_of_length_le (by omega), if_neg hlast]
    rw [hfront, List.take_of_length_le, List.append_assoc, List.singleton_append]
    rw [List.length_append, List.length_singleton]
    omega

theorem addSlash_ok {raw : Cursor UInt8} (h : raw.Shows cwdSize (dir.take 254)) (hdir : dir ≠ []) :
    ∃ raw', addSlash raw = .ok raw' ∧ raw'.Shows cwdSize (front dir) := by
  have hpos : 0 < raw.len := by
    have hlen := List.length_pos_iff.mpr hdir
    rw [h.len, List.length_take]
    omega
  rw [addSlash, h.items, front]
  by_cases hlast : (dir.take 254).getLast? = some slash
  · rw [if_neg (fun hc => hc.2 hlast), if_pos hlast]
    exact ⟨raw, rfl, h⟩
  · rw [if_pos ⟨hpos, hlast⟩, if_neg hlast]
    refine h.push ?_ Panic.outOfRange slash
    rw [List.length_take, cwdSize]
    omega

theorem rawPath_ok (h : HoldsString cwd dir) (hdir : dir ≠ []) (path : List UInt8) :
    ∃ raw, rawPath cwd path = .ok raw ∧ raw.Shows cwdSize (cutPath dir path) := by
  have hblank := Cursor.shows_blank cwdSize (0 : UInt8)
  have hmin : ∀ n, path.take (min path.length n) = path.take n := fun n => by
    rw [Nat.min_comm]
    exact List.take_eq_take_min.symm
  have hcut := length_cutPath dir path
  rw [cutPath] at hcut ⊢
  rw [rawPath]
  by_cases habs : path.head? = some slash
  · rw [if_pos habs] at hcut ⊢
    rw [if_neg (not_not.mpr habs), hmin]
    exact pushSlice_ok hblank (by rw [List.length_nil, cwdSize]; omega)
  · rw [if_neg habs] at hcut ⊢
    rw [if_pos habs]
    have hcopied : cwd.take (min ((cwd.idxOf? 0).getD cwdSize) 254) = dir.take 254 := by
      rw [h.idxOf, Option.getD_some, Nat.min_comm, ← List.take_take, h.take]
    have hroom : ([] : List UInt8).length + (dir.take 254).length ≤ cwdSize := by
      rw [List.length_nil, List.length_take, cwdSize]
      omega
    obtain ⟨raw₁, h₁, hs₁⟩ := pushSlice_ok hblank hroom
    obtain ⟨raw₂, h₂, hs₂⟩ := addSlash_ok hs₁ hdir
    have hrest : (front dir).length + (path.take (255 - (front dir).length)).length ≤ cwdSize := by
      rw [List.length_append] at hcut
      rw [cwdSize]
      omega
    obtain ⟨raw, h₃, hs⟩ := pushSlice_ok hs₂ hrest
    refine ⟨raw, ?_, hs⟩
    dsimp only
    rw [hcopied, h₁]
    change (addSlash raw₁ >>= fun raw => pushSlice (path.take (min path.length (255 - raw.len))) raw) = _
    rw [h₂]
    change pushSlice (path.take (min path.length (255 - raw₂.len))) raw₂ = _
    rw [hmin, hs₂.len, h₃]

end Raw

/-! ## The call -/

section Call

variable {s s' : Cwd} {cs : List (List UInt8)} {path bytes : List UInt8} {mem : Mem} {pathPtr : Word}

/-- The working directory is the path with some components, in both places. -/
structure Settled (cs : List (List UInt8)) (s : Cwd) : Prop where
  plain : ∀ c ∈ cs, Plain slash dot c
  depth : cs.length ≤ maxDepth
  noNul : (0 : UInt8) ∉ render slash cs
  fits : (render slash cs).length < cwdSize
  task : s.cwd = zeroed (render slash cs)
  bootInfo : HoldsString s.boot (render slash cs)

theorem Settled.cwd (h : Settled cs s) : HoldsString s.cwd (render slash cs) := by
  rw [h.task]
  exact holdsString_zeroed h.noNul h.fits

theorem Settled.untilNul (h : Settled cs s) : untilNul s.cwd = render slash cs := h.cwd.untilNul

theorem render_ne_nil (cs : List (List UInt8)) : render slash cs ≠ [] := by
  intro h
  have hhead : (render slash cs).head? = some slash := head_render cs
  rw [h] at hhead
  cases hhead

/-- The components that a raw path leaves on the stack. -/
def standing (bytes : List UInt8) : List (List UInt8) :=
  resolveAllWithin dot maxDepth [] (components slash bytes)

theorem exists_standing (bytes : List UInt8) :
    ∃ cs', cs'.Sublist (components slash bytes) ∧ standing bytes = resolveAll dot [] cs' :=
  resolveAllWithin_sublist maxDepth [] _

theorem plain_standing (bytes : List UInt8) : ∀ c ∈ standing bytes, Plain slash dot c := by
  obtain ⟨cs', hsub, heq⟩ := exists_standing bytes
  rw [heq]
  exact plain_resolveAll fun c hc => mem_components (hsub.subset hc)

/-- A raw path of at most 255 bytes leaves components for at most as many. -/
theorem weight_standing (hhead : bytes.head? = some slash) (hlen : bytes.length ≤ 255) :
    weight (standing bytes) ≤ 255 := by
  obtain ⟨cs', hsub, heq⟩ := exists_standing bytes
  obtain ⟨rest, rfl⟩ : ∃ rest, bytes = slash :: rest := List.head?_eq_some_iff.mp hhead
  rw [components_sep_cons] at hsub
  rw [List.length_cons] at hlen
  calc weight (standing (slash :: rest)) ≤ weight ([] : List (List UInt8)) + weight cs' :=
        heq ▸ weight_resolveAll [] cs'
    _ = weight cs' := Nat.zero_add _
    _ ≤ weight (components slash rest) := weight_sublist hsub
    _ ≤ rest.length + 1 := weight_components rest
    _ ≤ 255 := hlen

theorem noNul_standing (hnul : (0 : UInt8) ∉ bytes) : (0 : UInt8) ∉ render slash (standing bytes) := by
  obtain ⟨cs', hsub, heq⟩ := exists_standing bytes
  have hin : ∀ c ∈ standing bytes, c ⊆ bytes := by
    rw [heq]
    exact forall_resolveAll (fun _ h => nomatch h) fun c hc _ _ =>
      subset_of_mem_components (hsub.subset hc)
  intro h
  rcases mem_render h with h | ⟨c, hc, h⟩
  · exact absurd h (by decide)
  · exact hnul (hin c hc h)

theorem settled_standing (hhead : bytes.head? = some slash) (hlen : bytes.length ≤ 255)
    (hnul : (0 : UInt8) ∉ bytes) {boot : List UInt8} (hboot : boot.length = cwdSize) :
    Settled (standing bytes)
      ⟨zeroed (render slash (standing bytes)), putString boot (render slash (standing bytes))⟩ := by
  have hfits : (render slash (standing bytes)).length < cwdSize := by
    have hweight := weight_standing hhead hlen
    rw [length_render, cwdSize]
    omega
  exact
    { plain := plain_standing bytes
      depth := length_resolveAllWithin (Nat.zero_le _) _
      noNul := noNul_standing hnul
      fits := hfits
      task := rfl
      bootInfo := holdsString_putString hboot (noNul_standing hnul) hfits }

/-- **What a call does**: it puts the components of the cut path that stand into both arrays. -/
theorem sysChdir_spec (h : Settled cs s) (hread : readPath mem pathPtr = path) (hne : path ≠ []) :
    sysChdir s mem pathPtr =
      .ok (0, ⟨zeroed (render slash (standing (cutPath (render slash cs) path))),
        putString s.boot (render slash (standing (cutPath (render slash cs) path)))⟩) := by
  obtain ⟨raw, hraw, hshows⟩ := rawPath_ok h.cwd (render_ne_nil cs) path
  have hblank : Stands raw.items [] (Cursor.blank maxDepth (0, 0)) :=
    ⟨Cursor.shows_blank maxDepth (0, 0), rfl⟩
  obtain ⟨comps, hscan, hstands⟩ := scan_spec raw.len 0 (by
    rw [hshows.items, hshows.len]
    omega) hblank
  have hstanding : Stands raw.items (standing (cutPath (render slash cs) path)) comps := by
    rw [standing, ← hshows.items]
    rwa [List.drop_zero] at hstands
  obtain ⟨cwd, hrebuild, hcwd⟩ := rebuild_spec hstanding
    (weight_standing (head_cutPath (head_render cs) path) (length_cutPath _ path))
  rw [sysChdir, hread, if_neg (by rwa [List.length_eq_zero_iff]), hraw]
  change (scan raw.items raw.len 0 (Cursor.blank maxDepth (0, 0)) >>= _) = _
  rw [hscan]
  change (rebuild raw.items comps.items >>= _) = _
  rw [hrebuild, ← hcwd.items]
  rfl

/-- The components after a call. -/
def nextComps (cs : List (List UInt8)) (path : List UInt8) : List (List UInt8) :=
  if path = [] then cs else standing (cutPath (render slash cs) path)

/-- After a call the directory is one with plain components again. -/
theorem settled_sysChdir (h : Settled cs s) (call : ChdirCall) :
    ∃ s', sysChdir s call.mem call.pathPtr = .ok (0, s') ∧ Settled (nextComps cs call.path) s' := by
  rw [nextComps]
  by_cases hne : call.path = []
  · rw [if_pos hne]
    refine ⟨s, ?_, h⟩
    rw [sysChdir, readPath_eq, hne]
    rfl
  · rw [if_neg hne, ← cutPath_take]
    have hread : call.path.take cwdSize ≠ [] := by
      rw [Ne, List.take_eq_nil_iff, not_or]
      exact ⟨by decide, hne⟩
    refine ⟨_, sysChdir_spec h (readPath_eq call) hread, settled_standing ?_ ?_ ?_ ?_⟩
    · exact head_cutPath (head_render cs) _
    · exact length_cutPath _ _
    · exact noNul_cutPath h.noNul fun hmem => call.noNul (List.mem_of_mem_take hmem)
    · exact h.bootInfo.length

/-- A call with a path that is already canonical. -/
theorem sysChdir_render (h : Settled cs s) (call : ChdirCall) (hpath : call.path = render slash cs) :
    sysChdir s call.mem call.pathPtr = .ok (0, s) := by
  have hle : (render slash cs).length ≤ 255 := Nat.le_of_lt_succ h.fits
  have hread : readPath call.mem call.pathPtr = render slash cs := by
    rw [readPath_eq, hpath, List.take_of_length_le (Nat.le_of_lt h.fits)]
  have hcut : cutPath (render slash cs) (render slash cs) = render slash cs := by
    rw [cutPath, if_pos (head_render cs), List.take_of_length_le hle]
  have hstanding : standing (render slash cs) = cs := by
    have hall : resolveAll dot [] cs = cs := resolveAll_plain [] h.plain
    rw [standing, components_render h.plain, resolveAllWithin_eq, hall]
    intro k
    rw [resolveAll_plain [] fun c hc => h.plain c (List.mem_of_mem_take hc), List.nil_append,
      List.length_take]
    exact Nat.le_trans (Nat.min_le_right ..) h.depth
  rw [sysChdir_spec h hread (render_ne_nil cs), hcut, hstanding, h.bootInfo.putString, ← h.task]

theorem sysGetcwd_eq {str : List UInt8} (h : HoldsString s.cwd str) {buf : Word} (hbuf : buf ≠ 0)
    {size : ℕ} (hsize : str.length < size) (mem : Mem) :
    sysGetcwd s mem buf size =
      (BitVec.ofNat 64 (str.length + 1), copyOut mem buf (str ++ [0])) := by
  have hcopy : min str.length (size - 1) = str.length := by omega
  rw [sysGetcwd, if_neg (by omega), h.idxOf, Option.getD_some]
  dsimp only
  rw [if_neg (by omega), if_pos hbuf, hcopy, h.take]

/-- A call that returns 0 has canonicalised when it leaves the components of the target. -/
theorem canonicalises_of_settled (h : Settled cs s') (htarget : target s path = render slash cs) :
    Canonicalises s path 0 s' where
  task _ := htarget ▸ h.cwd
  bootInfo _ := htarget ▸ h.bootInfo
  canonical _ := by
    rw [h.untilNul]
    exact isCanonical_render h.plain
  getcwd _ mem buf size hbuf hsize := by
    rw [htarget] at hsize ⊢
    rw [sysGetcwd_eq h.cwd hbuf hsize]
    have hlen : (render slash cs ++ [0]).length = (render slash cs).length + 1 := List.length_append
    refine ⟨rfl, ?_⟩
    rw [← hlen]
    refine copyFrom_copyOut mem buf (Nat.lt_of_le_of_lt ?_ (show cwdSize < 2 ^ 64 by decide))
    rw [hlen]
    exact h.fits
  again _ call hpath := sysChdir_render h call (hpath.trans h.untilNul)
  rejects hlong := by
    rw [htarget] at hlong
    exact absurd h.fits (Nat.not_lt.mpr hlong)

/-- Within the bounds a call leaves the components of the target. -/
theorem target_eq (h : Settled cs s) (hfit : Fits s path) :
    target s path = render slash (nextComps cs path) := by
  have hall : resolveAll dot [] cs = cs := resolveAll_plain [] h.plain
  rw [target, normalise, nextComps]
  by_cases hempty : path = []
  · rw [if_pos hempty, joined, h.untilNul, hempty, components_join, if_neg (by simp),
      components_render h.plain, components_nil, List.append_nil, hall]
  · obtain ⟨hlen, hdepth⟩ := hfit.resolve_left hempty
    rw [joined, h.untilNul] at hlen hdepth ⊢
    rw [if_neg hempty, standing, cutPath_eq hempty hlen, resolveAllWithin_eq hdepth]

/-- A call canonicalises exactly when what is cut off and what is dropped make no difference. -/
theorem canonicalises_iff (h : Settled cs s) (call : ChdirCall) :
    (∃ ret s', sysChdir s call.mem call.pathPtr = .ok (ret, s') ∧
        Canonicalises s call.path ret s') ↔
      target s call.path = render slash (nextComps cs call.path) := by
  obtain ⟨s', hcall, h'⟩ := settled_sysChdir h call
  constructor
  · rintro ⟨ret, s₁, hcall₁, hcanon⟩
    cases hcall.symm.trans hcall₁
    exact (hcanon.task rfl).untilNul.symm.trans h'.untilNul
  · exact fun htarget => ⟨0, s', hcall, canonicalises_of_settled h' htarget⟩

/-- A short joined path with few components is within the bounds. -/
theorem fits_of_short (hlen : (joined s path).length < cwdSize)
    (hcount : (components slash (joined s path)).length ≤ maxDepth) : Fits s path := by
  refine .inr ⟨hlen, fun k => ?_⟩
  have hstand : (resolveAll dot [] ((components slash (joined s path)).take k)).length ≤
      0 + ((components slash (joined s path)).take k).length := length_resolveAll [] _
  rw [List.length_take] at hstand
  omega

end Call

/-! ## Runs -/

/-- A new image starts in the directory that `BootInfo` names. -/
theorem start_eq {boot str : List UInt8} (h : HoldsString boot str) (hpos : 0 < str.length) :
    start boot = ⟨zeroed str, boot⟩ := by
  have hfit : min str.length 255 = str.length := by
    have hlt := h.fits
    rw [cwdSize] at hlt
    omega
  have hzeroed := holdsString_zeroed h.noNul h.fits
  rw [start, h.idxOf, Option.getD_some, if_pos hpos, hfit, h.take, hzeroed.idxOf, Option.getD_some,
    if_pos hpos, hzeroed.take, h.putString]

theorem settled_init : Settled [] Cwd.init := by
  have hboot : HoldsString (zeroed [slash]) [slash] := holdsString_zeroed (by decide) (by decide)
  rw [Cwd.init, start_eq hboot (by decide)]
  exact
    { plain := fun _ hc => nomatch hc
      depth := Nat.zero_le _
      noNul := by decide
      fits := by decide
      task := rfl
      bootInfo := hboot }

/-- A new image keeps the directory. -/
theorem settled_execve {s : Cwd} {cs : List (List UInt8)} (h : Settled cs s) :
    Settled cs (execve s) := by
  rw [execve, start_eq h.cwd (List.length_pos_iff.mpr (render_ne_nil cs))]
  exact { h with task := rfl, bootInfo := h.cwd }

/-- Every step comes back and keeps the directory one with plain components. -/
theorem settled_step {s : Cwd} {cs : List (List UInt8)} (h : Settled cs s) (act : Act) :
    ∃ s' cs', step s act = .ok s' ∧ Settled cs' s' := by
  cases act with
  | chdir call =>
    obtain ⟨s', hcall, h'⟩ := settled_sysChdir h call
    refine ⟨s', _, ?_, h'⟩
    rw [step, hcall]
    rfl
  | execve => exact ⟨execve s, cs, rfl, settled_execve h⟩

theorem settled_run (acts : List Act) {s : Cwd} {cs : List (List UInt8)} (h : Settled cs s) :
    ∃ s' cs', acts.foldlM step s = .ok s' ∧ Settled cs' s' := by
  induction acts generalizing s cs with
  | nil => exact ⟨s, cs, rfl, h⟩
  | cons act acts ih =>
    obtain ⟨s₁, cs₁, hstep, h₁⟩ := settled_step h act
    obtain ⟨s', cs', hrest, h'⟩ := ih h₁
    refine ⟨s', cs', ?_, h'⟩
    rw [List.foldlM_cons, hstep]
    exact hrest

/-- **A call canonicalises when its path is within the bounds.**  Whatever calls of `sys_chdir` and
`sys_execve` came before, with any paths, they come back; and from the directory they leave, a call
does as it should if the joined path has at most 255 bytes and its components never stand more than
64 deep. -/
theorem chdir_canonicalises (acts : List Act) :
    ∃ s, acts.foldlM step Cwd.init = .ok s ∧
      ∀ call : ChdirCall, Fits s call.path → ∃ ret s',
        sysChdir s call.mem call.pathPtr = .ok (ret, s') ∧ Canonicalises s call.path ret s' := by
  obtain ⟨s, cs, hrun, h⟩ := settled_run acts settled_init
  exact ⟨s, hrun, fun call hfit => (canonicalises_iff h call).mpr (target_eq h hfit)⟩

/-- A call with a path that is put to memory for it. -/
def callWith (path : List UInt8) (noNul : (0 : UInt8) ∉ path) (hlen : path.length < cwdSize) :
    ChdirCall where
  mem := copyOut (fun _ => 0) 0x1000 (path ++ [0])
  pathPtr := 0x1000
  path := path
  terminated := by
    have hlength : (path ++ [0]).length = path.length + 1 := List.length_append
    rw [← hlength]
    refine copyFrom_copyOut _ _ (Nat.lt_of_le_of_lt ?_ (show cwdSize < 2 ^ 64 by decide))
    rw [hlength]
    exact hlen
  noNul := noNul

/-- `./a//../b/`, from the root. -/
def dotted : ChdirCall :=
  callWith [0x2E, 0x2F, 0x61, 0x2F, 0x2F, 0x2E, 0x2E, 0x2F, 0x62, 0x2F] (by decide) (by decide)

/-- It goes to `/b`. -/
theorem chdir_canonicalises_dotted : target Cwd.init dotted.path = [0x2F, 0x62] ∧ ∃ ret s',
    sysChdir Cwd.init dotted.mem dotted.pathPtr = .ok (ret, s') ∧
      Canonicalises Cwd.init dotted.path ret s' := by
  obtain ⟨s, hrun, hall⟩ := chdir_canonicalises []
  obtain rfl : Cwd.init = s := Except.ok.inj hrun
  exact ⟨by decide, hall dotted (fits_of_short (by decide) (by decide))⟩

/-- `/a/a/…/a`, 65 components in 130 bytes. -/
def deepPath : List UInt8 := render slash (List.replicate 65 [0x61])

def deep : ChdirCall := callWith deepPath (by decide +kernel) (by decide +kernel)

/-- **The 65th component is dropped**: the call returns 0 and leaves the directory above. -/
theorem chdir_drops_component :
    target Cwd.init deep.path = deepPath ∧ deepPath.length = 130 ∧
    ∃ s', sysChdir Cwd.init deep.mem deep.pathPtr = .ok (0, s') ∧
      untilNul s'.cwd = render slash (List.replicate 64 [0x61]) ∧
      ¬ Canonicalises Cwd.init deep.path 0 s' := by
  have htarget : target Cwd.init deep.path = deepPath := by decide +kernel
  have hnext : nextComps [] deep.path = List.replicate 64 [0x61] := by decide +kernel
  obtain ⟨s', hcall, h'⟩ := settled_sysChdir settled_init deep
  rw [hnext] at h'
  refine ⟨htarget, by decide +kernel, s', hcall, h'.untilNul, fun hcanon => ?_⟩
  have hsame := (canonicalises_iff settled_init deep).mp ⟨0, s', hcall, hcanon⟩
  rw [htarget, hnext] at hsame
  exact absurd hsame (by decide +kernel)

end QuackOS.Linux.Chdir
