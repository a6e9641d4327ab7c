import Mathlib.Data.List.Forall2
import QuackOS.Lib.Store

/-!
# Arguments across exec

`sys_execve` of `liblinux/src/proc.rs` copies the argument strings one behind the other into
`BootInfo.argv_buf`, and `_start` of `liblinux/src/main.rs` takes them apart again and puts them on
the stack of the new program.

The encoder counts every argument; the decoder skips runs of terminators, so it never sees an
argument that is the empty string (`decode_encode`).  `roundTrips_iff` is the exact condition.
-/

namespace QuackOS.Linux

/-- A string of the user, without its terminator. -/
abbrev CString := List UInt8

/-- `argv_buf.len()`. -/
def argvBufLen : ℕ := 2048

/-- `BootInfo`, with the fields that carry the arguments. -/
structure BootInfo where
  argc : ℕ
  argvBuf : ℕ → UInt8

/-! ## The encoder -/

/-- The byte at an offset of a terminated string. -/
def byteAt (arg : CString) (pos : ℕ) : UInt8 := arg.getD pos 0

/-- The loop of `sys_execve` over the bytes of one argument; the first number is `256 - pos`.
Returns the buffer and `buf_wp`. -/
def copyArg (arg : CString) : ℕ → ℕ → (ℕ → UInt8) → ℕ → (ℕ → UInt8) × ℕ
  | 0, _, buf, wp => (buf, wp)
  | n + 1, pos, buf, wp =>
    if wp < argvBufLen - 1 then
      let b := byteAt arg pos
      let buf := Function.update buf wp b
      if b = 0 then (buf, wp + 1) else copyArg arg n (pos + 1) buf (wp + 1)
    else (buf, wp)

/-- The loop of `sys_execve` over the arguments. -/
def collectArgv : List CString → ℕ → (ℕ → UInt8) → ℕ → BootInfo
  | [], argc, buf, _ => { argc, argvBuf := buf }
  | arg :: args, argc, buf, wp =>
    let (buf, wp) := copyArg arg 256 0 buf wp
    if 128 ≤ argc + 1 ∨ argvBufLen - 1 ≤ wp then { argc := argc + 1, argvBuf := buf }
    else collectArgv args (argc + 1) buf wp

/-- The `BootInfo` that `sys_execve` writes; no vector is the empty vector. -/
def encodeArgv (args : List CString) : BootInfo := collectArgv args 0 (fun _ => 0) 0

/-! ## The decoder -/

/-- Past the terminators; the number is what is left of the buffer. -/
def skipNul (buf : ℕ → UInt8) : ℕ → ℕ → ℕ
  | 0, pos => pos
  | n + 1, pos => if buf pos = 0 then skipNul buf n (pos + 1) else pos

/-- Past the bytes of a string; the number is what is left of the buffer. -/
def skipText (buf : ℕ → UInt8) : ℕ → ℕ → ℕ
  | 0, pos => pos
  | n + 1, pos => if buf pos = 0 then pos else skipText buf n (pos + 1)

/-- The decoder's state: memory, `wp` and the first `arg_idx` entries of `argv_ptrs`. -/
structure Decoded where
  mem : ℕ → UInt8
  wp : ℕ
  argvPtrs : List ℕ

/-- `slen` bytes of the buffer and a terminator are put below `wp`. -/
def Decoded.pushString (d : Decoded) (buf : ℕ → UInt8) (start slen : ℕ) : Decoded :=
  let va := d.wp - (slen + 1 + 7) / 8 * 8
  { mem := fun a =>
      if a = va + slen then 0
      else if va ≤ a ∧ a < va + slen then buf (start + (a - va)) else d.mem a
    wp := va
    argvPtrs := d.argvPtrs ++ [va] }

/-- The loop of `_start` over the buffer; the first number is `128 - arg_idx`. -/
def decodeLoop (buf : ℕ → UInt8) : ℕ → ℕ → Decoded → Decoded
  | 0, _, d => d
  | n + 1, pos, d =>
    if pos < argvBufLen then
      let start := skipNul buf (argvBufLen - pos) pos
      if argvBufLen ≤ start then d
      else
        let stop := skipText buf (argvBufLen - start) start
        if stop - start = 0 then d
        else decodeLoop buf n (stop + 1) (d.pushString buf start (stop - start))
    else d

/-- `bootinfo.stack_top - 4096`. -/
def initialSp : ℕ := 0x7FFFFFF10000 - 4096

/-- `_start` up to the end of the loop over the arguments. -/
def decodeArgv (info : BootInfo) (mem : ℕ → UInt8) : Decoded :=
  decodeLoop info.argvBuf 128 0
    { mem := fun a => if initialSp ≤ a ∧ a < initialSp + 512 then 0 else mem a
      wp := initialSp + 4096 - 8
      argvPtrs := [] }

/-! ## The statement -/

/-- A pointer to the string. -/
def StringAt (mem : ℕ → UInt8) (s : CString) (ptr : ℕ) : Prop :=
  (∀ i, i < s.length → mem (ptr + i) = byteAt s i) ∧ mem (ptr + s.length) = 0

/-- The bytes of the arguments one behind the other, with their terminators. -/
def joined (args : List CString) : List UInt8 := args.flatMap fun arg => arg ++ [0]

/-- What fits the buffers on both sides. -/
structure ArgvFits (args : List CString) : Prop where
  count : args.length ≤ 128
  nulFree : ∀ arg ∈ args, 0 ∉ arg
  short : ∀ arg ∈ args, arg.length ≤ 255
  total : (joined args).length ≤ 2047

/-- The new program finds the count and the strings that `execve` was given. -/
def RoundTrips (args : List CString) (mem : ℕ → UInt8) : Prop :=
  (encodeArgv args).argc = args.length ∧
    List.Forall₂ (StringAt (decodeArgv (encodeArgv args) mem).mem) args
      (decodeArgv (encodeArgv args) mem).argvPtrs

/-! ## What the encoder writes -/

/-- A buffer that starts with the bytes of a list. -/
def ofList (l : List UInt8) : ℕ → UInt8 := fun i => l.getD i 0

theorem update_ofList (l : List UInt8) (b : UInt8) :
    Function.update (ofList l) l.length b = ofList (l ++ [b]) := by
  funext i
  by_cases hi : i = l.length
  · subst hi
    simp [ofList]
  · rw [Function.update_of_ne hi]
    simp only [ofList, List.getD_eq_getElem?_getD]
    by_cases hlt : i < l.length
    · rw [List.getElem?_append_left hlt]
    · rw [List.getElem?_eq_none (by omega), List.getElem?_eq_none]
      rw [List.length_append, List.length_singleton]
      omega

theorem ofList_append (pre l : List UInt8) (i : ℕ) :
    ofList (pre ++ l) (pre.length + i) = ofList l i := by
  simp [ofList, List.getElem?_append_right]

theorem byteAt_append (done rest : CString) (i : ℕ) :
    byteAt (done ++ rest) (done.length + i) = byteAt rest i := ofList_append done rest i

/-- One argument is copied with its terminator. -/
theorem copyArg_eq {done rest : CString} {pre : List UInt8} {n : ℕ} (hnul : 0 ∉ rest)
    (hn : rest.length < n) (hroom : pre.length + rest.length + 1 ≤ 2047) :
    copyArg (done ++ rest) n done.length (ofList pre) pre.length =
      (ofList (pre ++ (rest ++ [0])), (pre ++ (rest ++ [0])).length) := by
  induction rest generalizing done pre n with
  | nil =>
    obtain ⟨n, rfl⟩ := Nat.exists_eq_succ_of_ne_zero (Nat.ne_of_gt hn)
    have hwp : pre.length < argvBufLen - 1 := by
      simp only [argvBufLen, List.length_nil] at *
      omega
    have hbyte : byteAt (done ++ []) done.length = 0 := byteAt_append done [] 0
    rw [copyArg, if_pos hwp]
    simp only [hbyte, if_true, update_ofList]
    simp
  | cons c rest ih =>
    rw [List.length_cons] at hn hroom
    obtain ⟨n, rfl⟩ := Nat.exists_eq_succ_of_ne_zero (show n ≠ 0 by omega)
    have hwp : pre.length < argvBufLen - 1 := by
      simp only [argvBufLen]
      omega
    have hbyte : byteAt (done ++ c :: rest) done.length = c := byteAt_append done (c :: rest) 0
    have hc : c ≠ 0 := fun h => hnul (by simp [h])
    rw [copyArg, if_pos hwp]
    simp only [hbyte, if_neg hc, update_ofList]
    have hrest := @ih (done ++ [c]) (pre ++ [c]) n (fun h => hnul (List.mem_cons_of_mem c h))
      (by omega) (by rw [List.length_append, List.length_singleton]; omega)
    simpa [List.append_assoc] using hrest

theorem joined_cons (arg : CString) (args : List CString) :
    joined (arg :: args) = arg ++ [0] ++ joined args := rfl

/-- Every argument takes room. -/
theorem length_le_joined (args : List CString) : args.length ≤ (joined args).length := by
  induction args with
  | nil => exact Nat.le_refl _
  | cons arg args ih =>
    rw [joined_cons, List.length_append, List.length_append, List.length_cons, List.length_singleton]
    omega

theorem collectArgv_eq {args : List CString} {argc : ℕ} {pre : List UInt8}
    (hnul : ∀ arg ∈ args, 0 ∉ arg) (hshort : ∀ arg ∈ args, arg.length ≤ 255)
    (hcount : argc + args.length ≤ 128) (hroom : pre.length + (joined args).length ≤ 2047) :
    collectArgv args argc (ofList pre) pre.length =
      { argc := argc + args.length, argvBuf := ofList (pre ++ joined args) } := by
  induction args generalizing argc pre with
  | nil => simp [collectArgv, joined]
  | cons arg args ih =>
    rw [joined_cons] at hroom ⊢
    rw [List.length_append, List.length_append, List.length_singleton] at hroom
    rw [List.length_cons] at hcount ⊢
    have hcopy := @copyArg_eq [] arg pre 256 (hnul arg (List.mem_cons_self ..))
      (Nat.lt_succ_of_le (hshort arg (List.mem_cons_self ..))) (by omega)
    have hlen : (pre ++ (arg ++ [0])).length = pre.length + arg.length + 1 := by
      simp [Nat.add_assoc]
    simp only [collectArgv]
    rw [List.nil_append, List.length_nil] at hcopy
    simp only [hcopy]
    by_cases hlast : 128 ≤ argc + 1 ∨ argvBufLen - 1 ≤ (pre ++ (arg ++ [0])).length
    · -- the loop stops early only behind the last argument
      have hnil : args = [] := by
        refine List.eq_nil_of_length_eq_zero ?_
        have := length_le_joined args
        simp only [argvBufLen] at hlast
        omega
      subst hnil
      rw [if_pos hlast]
      simp [joined]
    · rw [if_neg hlast, ih (fun a ha => hnul a (List.mem_cons_of_mem arg ha))
        (fun a ha => hshort a (List.mem_cons_of_mem arg ha)) (by omega) (by omega)]
      simp [Nat.add_assoc, Nat.add_comm 1]

theorem encodeArgv_eq {args : List CString} (h : ArgvFits args) :
    encodeArgv args = { argc := args.length, argvBuf := ofList (joined args) } := by
  have hcollect := @collectArgv_eq args 0 [] h.nulFree h.short (by have := h.count; omega)
    (by have := h.total; simpa using this)
  rw [Nat.zero_add, List.nil_append] at hcollect
  exact hcollect

/-! ## What the decoder finds -/

theorem skipNul_end {buf : ℕ → UInt8} {n pos : ℕ} (h : ∀ i, pos ≤ i → buf i = 0) :
    skipNul buf n pos = pos + n := by
  induction n generalizing pos with
  | zero => rfl
  | succ n ih =>
    rw [skipNul, if_pos (h pos (Nat.le_refl _)), ih fun i hi => h i (by omega)]
    omega

theorem skipText_eq {buf : ℕ → UInt8} {n pos k : ℕ} (htext : ∀ i, i < k → buf (pos + i) ≠ 0)
    (hend : buf (pos + k) = 0) (hk : k < n) : skipText buf n pos = pos + k := by
  induction k generalizing n pos with
  | zero =>
    obtain ⟨n, rfl⟩ := Nat.exists_eq_succ_of_ne_zero (Nat.ne_of_gt hk)
    exact if_pos hend
  | succ k ih =>
    obtain ⟨n, rfl⟩ := Nat.exists_eq_succ_of_ne_zero (show n ≠ 0 by omega)
    have hfirst : buf pos ≠ 0 := htext 0 (Nat.succ_pos k)
    rw [skipText, if_neg hfirst]
    have hshift : ∀ i, pos + (i + 1) = pos + 1 + i := fun i => by omega
    rw [hshift k] at hend ⊢
    refine ih (fun i hi => ?_) hend (by omega)
    rw [← hshift i]
    exact htext (i + 1) (Nat.succ_lt_succ hi)

/-- A terminator between the arguments is skipped. -/
theorem decodeLoop_skip {buf : ℕ → UInt8} {n pos : ℕ} {d : Decoded} (h : buf pos = 0)
    (hpos : pos + 1 < argvBufLen) : decodeLoop buf n pos d = decodeLoop buf n (pos + 1) d := by
  cases n with
  | zero => rfl
  | succ n =>
    have hskip : skipNul buf (argvBufLen - pos) pos =
        skipNul buf (argvBufLen - (pos + 1)) (pos + 1) := by
      rw [show argvBufLen - pos = argvBufLen - (pos + 1) + 1 by omega, skipNul, if_pos h]
    rw [decodeLoop, decodeLoop, if_pos (by omega), if_pos hpos, hskip]

/-- A string in front of the rest is put on the stack. -/
theorem decodeLoop_text {buf : ℕ → UInt8} {n pos k : ℕ} {d : Decoded} (hk : 0 < k)
    (htext : ∀ i, i < k → buf (pos + i) ≠ 0) (hend : buf (pos + k) = 0)
    (hpos : pos + k < argvBufLen) :
    decodeLoop buf (n + 1) pos d = decodeLoop buf n (pos + k + 1) (d.pushString buf pos k) := by
  have hfirst : buf pos ≠ 0 := htext 0 hk
  have hstart : skipNul buf (argvBufLen - pos) pos = pos := by
    rw [show argvBufLen - pos = argvBufLen - pos - 1 + 1 by omega, skipNul, if_neg hfirst]
  have hstop : skipText buf (argvBufLen - pos) pos = pos + k := skipText_eq htext hend (by omega)
  rw [decodeLoop, if_pos (by omega)]
  simp only [hstart, hstop]
  rw [if_neg (by omega), if_neg (by omega), show pos + k - pos = k by omega]

/-- A string is put below what is on the stack. -/
def Decoded.push (d : Decoded) (s : CString) : Decoded := d.pushString (ofList s) 0 s.length

theorem pushString_eq_push {buf : ℕ → UInt8} {start : ℕ} {d : Decoded} {arg : CString}
    (hbuf : ∀ i, i < arg.length → buf (start + i) = byteAt arg i) :
    d.pushString buf start arg.length = d.push arg := by
  unfold Decoded.push Decoded.pushString
  dsimp only
  congr 1
  funext a
  split
  · rfl
  · split
    case isTrue hin =>
      rw [hbuf _ (by omega), Nat.zero_add]
      rfl
    case isFalse => rfl

/-- The arguments that are not empty. -/
def texts (args : List CString) : List CString := args.filter fun arg => !arg.isEmpty

theorem texts_cons (c : UInt8) (t : CString) (args : List CString) :
    texts ((c :: t) :: args) = (c :: t) :: texts args := rfl

theorem texts_eq_self {args : List CString} (h : [] ∉ args) : texts args = args := by
  refine List.filter_eq_self.mpr fun arg harg => ?_
  cases arg with
  | nil => exact absurd harg h
  | cons c t => rfl

theorem length_texts_lt {args : List CString} (h : [] ∈ args) :
    (texts args).length < args.length := by
  refine lt_of_le_of_ne (List.length_filter_le _ _) fun hlen => ?_
  exact absurd (List.length_filter_eq_length_iff.mp hlen [] h) (by decide)

/-- **The decoder finds the arguments that are not empty**, behind the bytes `done`. -/
theorem decodeLoop_eq {args : List CString} {done : List UInt8} {n : ℕ} {d : Decoded}
    (hnul : ∀ arg ∈ args, 0 ∉ arg) (hroom : done.length + (joined args).length ≤ 2047)
    (hn : (texts args).length ≤ n) :
    decodeLoop (ofList (done ++ joined args)) n done.length d =
      (texts args).foldl Decoded.push d := by
  induction args generalizing done n d with
  | nil =>
    cases n with
    | zero => rfl
    | succ n =>
      have hzero : ∀ i, done.length ≤ i → ofList (done ++ joined []) i = 0 := by
        intro i hi
        simp [ofList, joined, hi]
      have hlen : done.length < argvBufLen := by
        simp only [argvBufLen]
        omega
      rw [decodeLoop, if_pos hlen, skipNul_end hzero, if_pos (by omega)]
      rfl
  | cons arg args ih =>
    have hnul' : ∀ a ∈ args, 0 ∉ a := fun a ha => hnul a (List.mem_cons_of_mem arg ha)
    rw [joined_cons] at hroom ⊢
    simp only [List.length_append, List.length_singleton] at hroom
    have hsplit : done ++ (arg ++ [0] ++ joined args) = done ++ (arg ++ [0]) ++ joined args :=
      (List.append_assoc ..).symm
    have hbyte : ∀ i, ofList (done ++ (arg ++ [0] ++ joined args)) (done.length + i) =
        ofList (arg ++ [0] ++ joined args) i := fun i => ofList_append done _ i
    have hend : ofList (done ++ (arg ++ [0] ++ joined args)) (done.length + arg.length) = 0 := by
      rw [hbyte, List.append_assoc]
      exact ofList_append arg ([0] ++ joined args) 0
    have htext : ∀ i, i < arg.length →
        ofList (done ++ (arg ++ [0] ++ joined args)) (done.length + i) = byteAt arg i := by
      intro i hi
      rw [hbyte, List.append_assoc]
      simp [ofList, byteAt, List.getElem?_append_left hi]
    cases arg with
    | nil =>
      have hrest := @ih (done ++ [0]) n d hnul' (by
        rw [List.length_append, List.length_singleton]
        omega) hn
      rw [List.length_append, List.length_singleton] at hrest
      have hskip := @decodeLoop_skip _ n _ d hend
        (by simp only [argvBufLen, List.length_nil] at *; omega)
      rw [List.length_nil, Nat.add_zero] at hskip
      rw [hskip, hsplit]
      exact hrest
    | cons c t =>
      rw [texts_cons, List.length_cons] at hn
      obtain ⟨n, rfl⟩ := Nat.exists_eq_succ_of_ne_zero (show n ≠ 0 by omega)
      have hne : ∀ i, i < (c :: t).length →
          ofList (done ++ (c :: t ++ [0] ++ joined args)) (done.length + i) ≠ 0 := by
        intro i hi h0
        rw [htext i hi] at h0
        refine hnul (c :: t) (List.mem_cons_self ..) ?_
        rw [← h0]
        simp only [byteAt, List.getD_eq_getElem _ _ hi]
        exact List.getElem_mem hi
      have hin : done.length + (c :: t).length < argvBufLen := by
        simp only [argvBufLen]
        omega
      have hpos : (done ++ (c :: t ++ [0])).length = done.length + (c :: t).length + 1 := by
        simp only [List.length_append, List.length_singleton]
        omega
      have hpush := pushString_eq_push (d := d) htext
      rw [decodeLoop_text (show 0 < (c :: t).length from Nat.succ_pos _) hne hend hin, hpush, hsplit,
        ← hpos, texts_cons, List.foldl_cons]
      refine ih hnul' ?_ (by omega)
      simp only [List.length_append, List.length_singleton]
      omega

/-! ## Strings one below the other -/

theorem stringAt_iff_holds {mem : ℕ → UInt8} {s : CString} {ptr : ℕ} :
    StringAt mem s ptr ↔ Store.Holds mem ptr (s ++ [0]) := by
  rw [Store.holds_append]
  refine and_congr_right fun _ => ⟨fun h i hi => ?_, fun h => h 0 (by simp)⟩
  rw [List.length_singleton, Nat.lt_one_iff] at hi
  rw [hi]
  exact h

/-- `((len + 1) + 7) & !7`. -/
def allocOf (s : CString) : ℕ := (s.length + 1 + 7) / 8 * 8

theorem wp_push (d : Decoded) (s : CString) : (d.push s).wp = d.wp - allocOf s := rfl

theorem argvPtrs_push (d : Decoded) (s : CString) :
    (d.push s).argvPtrs = d.argvPtrs ++ [(d.push s).wp] := rfl

theorem mem_push (d : Decoded) (s : CString) :
    (d.push s).mem = Store.write d.mem (d.push s).wp (s ++ [0]) := by
  funext a
  rw [wp_push]
  simp only [Decoded.push, Decoded.pushString, Store.write, List.length_append,
    List.length_singleton, allocOf]
  generalize d.wp - (s.length + 1 + 7) / 8 * 8 = va
  by_cases hend : a = va + s.length
  · subst hend
    rw [if_pos rfl, if_pos (by omega)]
    simp
  · rw [if_neg hend]
    by_cases hin : va ≤ a ∧ a < va + s.length
    · rw [if_pos hin, if_pos (by omega), Nat.zero_add, List.getD_append _ _ _ _ (by omega)]
      rfl
    · rw [if_neg hin, if_neg (by omega)]

/-- The ranges of strings and of their terminators. -/
def regions (strs : List CString) (ptrs : List ℕ) : List (ℕ × ℕ) :=
  List.zipWith (fun s p => (p, s.length + 1)) strs ptrs

/-- The strings stand on the stack, each below the one before, between `wp` and `top`. -/
structure Laid (top : ℕ) (strs : List CString) (d : Decoded) : Prop where
  strings : List.Forall₂ (StringAt d.mem) strs d.argvPtrs
  below : (regions strs d.argvPtrs).Pairwise fun p q => q.1 + q.2 ≤ p.1
  inside : ∀ p ∈ regions strs d.argvPtrs, d.wp ≤ p.1 ∧ p.1 + p.2 ≤ top
  wp : d.wp + (strs.map allocOf).sum = top

theorem mem_regions_of_forall₂ {R : CString → ℕ → Prop} {strs : List CString} {ptrs : List ℕ}
    (h : List.Forall₂ R strs ptrs) {P : CString → ℕ → Prop}
    (hP : ∀ s p, R s p → (p, s.length + 1) ∈ regions strs ptrs → P s p) :
    List.Forall₂ P strs ptrs := by
  induction h with
  | nil => exact .nil
  | cons hsp hrest ih =>
    refine .cons (hP _ _ hsp (List.mem_cons_self ..)) (ih fun s p hr hmem => ?_)
    exact hP s p hr (List.mem_cons_of_mem _ hmem)

theorem Laid.push {top : ℕ} {strs : List CString} {d : Decoded} (h : Laid top strs d) {s : CString}
    (hroom : allocOf s ≤ d.wp) : Laid top (strs ++ [s]) (d.push s) := by
  have halloc : s.length + 1 ≤ allocOf s := by
    unfold allocOf
    omega
  have hwp := wp_push d s
  have hregions : regions (strs ++ [s]) (d.push s).argvPtrs =
      regions strs d.argvPtrs ++ [((d.push s).wp, s.length + 1)] := by
    rw [argvPtrs_push, regions, List.zipWith_append h.strings.length_eq]
    rfl
  refine ⟨?_, ?_, fun p hp => ?_, ?_⟩
  · rw [argvPtrs_push, mem_push]
    refine List.rel_append (mem_regions_of_forall₂ h.strings fun t p hat hp => ?_)
      (.cons (stringAt_iff_holds.mpr (Store.holds_write _ _ _)) .nil)
    rw [stringAt_iff_holds] at hat ⊢
    refine hat.write (.inr ?_)
    have hlow := (h.inside _ hp).1
    simp only [List.length_append, List.length_singleton]
    dsimp only at hlow
    omega
  · rw [hregions, List.pairwise_append]
    refine ⟨h.below, List.pairwise_singleton .., fun p hp q hq => ?_⟩
    rw [List.mem_singleton.mp hq]
    have hlow := (h.inside p hp).1
    dsimp only
    omega
  · rw [hregions] at hp
    have htop := h.wp
    rcases List.mem_append.mp hp with hp | hp
    · have hin := h.inside p hp
      omega
    · rw [List.mem_singleton.mp hp]
      dsimp only
      omega
  · have htop := h.wp
    simp only [List.map_append, List.sum_append, List.map_cons, List.map_nil, List.sum_cons,
      List.sum_nil]
    omega

theorem Laid.foldl {top : ℕ} {strs more : List CString} {d : Decoded} (h : Laid top strs d)
    (hroom : (more.map allocOf).sum ≤ d.wp) :
    Laid top (strs ++ more) (more.foldl Decoded.push d) := by
  induction more generalizing strs d with
  | nil => rwa [List.append_nil]
  | cons s more ih =>
    rw [List.map_cons, List.sum_cons] at hroom
    have hpush := h.push (s := s) (by omega)
    have hrest := ih hpush (by rw [wp_push]; omega)
    rwa [List.append_assoc] at hrest

/-- The room the strings take on the stack, in terms of the buffer they came in. -/
theorem sum_allocOf_texts_le (args : List CString) :
    ((texts args).map allocOf).sum ≤ 8 * (joined args).length := by
  induction args with
  | nil => exact Nat.le_refl 0
  | cons arg args ih =>
    rw [joined_cons, List.length_append, List.length_append, List.length_singleton]
    cases arg with
    | nil => exact ih.trans (by omega)
    | cons c t =>
      rw [texts_cons, List.map_cons, List.sum_cons, allocOf]
      omega

/-- The state in which `_start` begins to put strings on the stack. -/
def beforeStrings (mem : ℕ → UInt8) : Decoded where
  mem a := if initialSp ≤ a ∧ a < initialSp + 512 then 0 else mem a
  wp := initialSp + 4096 - 8
  argvPtrs := []

theorem laid_beforeStrings (mem : ℕ → UInt8) :
    Laid (initialSp + 4096 - 8) [] (beforeStrings mem) :=
  ⟨.nil, .nil, fun _ hp => (by cases hp), rfl⟩

/-- **The count is right, and the strings are the arguments that are not empty.** -/
theorem decode_encode {args : List CString} (h : ArgvFits args) (mem : ℕ → UInt8) :
    (encodeArgv args).argc = args.length ∧
      List.Forall₂ (StringAt (decodeArgv (encodeArgv args) mem).mem) (texts args)
        (decodeArgv (encodeArgv args) mem).argvPtrs := by
  have hcount : (texts args).length ≤ 128 := Nat.le_trans (List.length_filter_le _ _) h.count
  have htotal := h.total
  rw [encodeArgv_eq h]
  refine ⟨rfl, ?_⟩
  have hdec : decodeArgv { argc := args.length, argvBuf := ofList (joined args) } mem =
      (texts args).foldl Decoded.push (beforeStrings mem) :=
    @decodeLoop_eq args [] 128 (beforeStrings mem) h.nulFree (by simpa using htotal) hcount
  have hroom : ((texts args).map allocOf).sum ≤ (beforeStrings mem).wp := by
    have hsum := sum_allocOf_texts_le args
    simp only [beforeStrings, initialSp]
    omega
  rw [hdec]
  exact ((laid_beforeStrings mem).foldl hroom).strings

/-- **The arguments survive exec exactly when none of them is empty.** -/
theorem roundTrips_iff {args : List CString} (h : ArgvFits args) (mem : ℕ → UInt8) :
    RoundTrips args mem ↔ [] ∉ args := by
  obtain ⟨hargc, hall⟩ := decode_encode h mem
  constructor
  · intro hround hmem
    have hlen : (texts args).length = args.length :=
      hall.length_eq.trans hround.2.length_eq.symm
    exact absurd hlen (length_texts_lt hmem).ne
  · intro hne
    rw [texts_eq_self hne] at hall
    exact ⟨hargc, hall⟩

/-- `ls -l`. -/
theorem roundTrips_iff_ls : RoundTrips [[0x6c, 0x73], [0x2d, 0x6c]] (fun _ => 0) :=
  (roundTrips_iff ⟨by decide, by decide, by decide, by decide⟩ _).mpr (by decide)

/-- **An empty argument is lost**: `a "" b` is counted as three arguments, and two are found. -/
theorem empty_argument_lost : ArgvFits [[0x61], [], [0x62]] ∧
    ¬ RoundTrips [[0x61], [], [0x62]] (fun _ => 0) := by
  have hfits : ArgvFits [[0x61], [], [0x62]] := ⟨by decide, by decide, by decide, by decide⟩
  refine ⟨hfits, fun hround => ?_⟩
  have hlen := (decode_encode hfits fun _ => 0).2.length_eq
  rw [← hround.2.length_eq] at hlen
  exact absurd hlen (by decide)

end QuackOS.Linux
