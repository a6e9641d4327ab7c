import QuackOS.Linux.Exec

/-!
# The initial stack

The rest of `_start` of `liblinux/src/main.rs`: below the argument strings it puts the environment
strings, and at `sp` the vector of `argc`, `argv`, `envp` and `auxv` that a new program expects.
The sixteen bytes for `AT_RANDOM` come last, at a fixed place.

The vector grows with the number of arguments, the place of the random bytes does not:
`wellFormed_iff` says for which arguments the new program finds everything intact.
-/

namespace QuackOS.Linux

/-! ## The builder -/

/-- `BootInfo`, with the fields that `_start` reads for the stack. -/
structure ExecInfo extends BootInfo where
  programEntry : BitVec 64
  phdrAddr : BitVec 64
  phentSize : BitVec 64
  phnum : BitVec 64
  cwd : ℕ → UInt8

/-- `iter().position(|&b| b == 0).unwrap_or(0)` on the 256 bytes of a directory name. -/
def cwdEnd (cwd : ℕ → UInt8) : ℕ := ((List.range 256).find? fun i => cwd i = 0).getD 0

/-- `task.cwd` after it was restored; a new task is in `/`. -/
def restoreCwd (cwd : ℕ → UInt8) : ℕ → UInt8 :=
  if 0 < cwdEnd cwd then fun i => if i < min (cwdEnd cwd) 255 then cwd i else 0
  else fun i => if i = 0 then 0x2f else 0

/-- The first `pwd_len` bytes of `pwd_buf`: `PWD=` and the directory. -/
def pwdString (cwd : ℕ → UInt8) : CString :=
  [0x50, 0x57, 0x44, 0x3d] ++
    if 0 < cwdEnd (restoreCwd cwd) then
      (List.range (min (cwdEnd (restoreCwd cwd)) 256)).map (restoreCwd cwd)
    else [0x2f]

/-- `PS1=$PWD \$ `. -/
def ps1Str : CString :=
  [0x50, 0x53, 0x31, 0x3d, 0x24, 0x50, 0x57, 0x44, 0x20, 0x5c, 0x24, 0x20]

/-- `HOME=/`. -/
def homeStr : CString := [0x48, 0x4f, 0x4d, 0x45, 0x3d, 0x2f]

/-- The 16 pseudo-random bytes. -/
def randomBytes : List UInt8 :=
  [0x7f, 0x3a, 0x91, 0x4e, 0x56, 0xb8, 0x2c, 0x0d, 0xe1, 0xf5, 0x48, 0x37, 0xaa, 0x9b, 0x6c, 0x12]

/-- Where they go. -/
def randomVa : ℕ := initialSp + 208

/-- The words from `auxv` on: `AT_PHDR`, `AT_PHENT`, `AT_PHNUM`, `AT_PAGESZ`, `AT_ENTRY`,
`AT_HWCAP`, `AT_CLKTCK`, `AT_RANDOM` and `AT_NULL`, each with its value. -/
def auxv (info : ExecInfo) : List (BitVec 64) :=
  [3, info.phdrAddr, 4, info.phentSize, 5, info.phnum, 6, 4096, 9, info.programEntry, 16, 0,
    17, 100, 25, BitVec.ofNat 64 randomVa, 0, 0]

/-- The words from `sp` on. -/
def vector (info : ExecInfo) (argvPtrs : List ℕ) (ps1 pwd home : ℕ) : List (BitVec 64) :=
  BitVec.ofNat 64 info.argc :: argvPtrs.map (BitVec.ofNat 64) ++
    [0, BitVec.ofNat 64 ps1, BitVec.ofNat 64 pwd, BitVec.ofNat 64 home, 0] ++ auxv info

/-- The memory when `_start` enters the new program. -/
def buildStack (info : ExecInfo) (mem : ℕ → UInt8) : ℕ → UInt8 :=
  let argv := decodeArgv info.toBootInfo mem
  let home := argv.push homeStr
  let ps1 := home.push ps1Str
  let pwd := ps1.push (pwdString info.cwd)
  let words := vector info argv.argvPtrs ps1.wp pwd.wp home.wp
  let mem := Store.write pwd.mem initialSp (Store.wordBytes words)
  Store.write mem randomVa randomBytes

/-! ## The reader -/

/-- The `i`-th word from `sp` on. -/
def wordOf (mem : ℕ → UInt8) (i : ℕ) : BitVec 64 := Store.wordAt mem (initialSp + 8 * i)

/-- The string pointers: `argv`, and `HOME`, `PS1` and `PWD` behind it. -/
def pointers (argc : ℕ) (mem : ℕ → UInt8) : List ℕ :=
  (List.range argc).map (fun i => (wordOf mem (1 + i)).toNat) ++
    [(wordOf mem (argc + 4)).toNat, (wordOf mem (argc + 2)).toNat, (wordOf mem (argc + 3)).toNat]

/-- The parts of the page: the vector, the random bytes and the strings. -/
def parts (argc : ℕ) (strs : List CString) (mem : ℕ → UInt8) : List (ℕ × ℕ) :=
  (initialSp, 8 * (argc + 24)) :: (randomVa, 16) :: regions strs (pointers argc mem)

/-- What a program with these arguments expects to find, reading from `sp`. -/
structure WellFormed (info : ExecInfo) (args : List CString) (mem : ℕ → UInt8) : Prop where
  argc : wordOf mem 0 = BitVec.ofNat 64 info.argc
  argv : ∀ i, i < info.argc → wordOf mem (1 + i) ≠ 0
  argvEnd : wordOf mem (info.argc + 1) = 0
  envEnd : wordOf mem (info.argc + 5) = 0
  auxv : ∀ i, i < 18 → wordOf mem (info.argc + 6 + i) = (auxv info).getD i 0
  strings : List.Forall₂ (StringAt mem) (args ++ [homeStr, ps1Str, pwdString info.cwd])
    (pointers info.argc mem)
  nulFree : ∀ s ∈ args ++ [homeStr, ps1Str, pwdString info.cwd], 0 ∉ s
  random : Store.Holds mem randomVa randomBytes
  apart : (parts info.argc (args ++ [homeStr, ps1Str, pwdString info.cwd]) mem).Pairwise Store.Apart
  page : ∀ p ∈ parts info.argc (args ++ [homeStr, ps1Str, pwdString info.cwd]) mem,
    initialSp ≤ p.1 ∧ p.1 + p.2 ≤ initialSp + 4096

/-- The vector and the random bytes leave room for two arguments. -/
theorem WellFormed.argc_le {info : ExecInfo} {args : List CString} {mem : ℕ → UInt8}
    (h : WellFormed info args mem) : info.argc ≤ 2 := by
  have hapart := (List.pairwise_cons.mp h.apart).1 _ (List.mem_cons_self ..)
  simp only [Store.Apart, randomVa, initialSp] at hapart
  omega

/-! ## The directory -/

/-- The directory's name ends at its first NUL. -/
theorem ne_zero_of_lt_cwdEnd {cwd : ℕ → UInt8} {i : ℕ} (hi : i < cwdEnd cwd) : cwd i ≠ 0 := by
  unfold cwdEnd at hi
  cases hf : (List.range 256).find? fun i => cwd i = 0 with
  | none =>
    rw [hf] at hi
    cases hi
  | some n =>
    rw [hf] at hi
    have hbefore := (List.find?_range_eq_some.mp hf).2.2 i hi
    simpa using hbefore

theorem pwdString_nulFree (cwd : ℕ → UInt8) : 0 ∉ pwdString cwd := by
  unfold pwdString
  rw [List.mem_append, not_or]
  refine ⟨by decide, ?_⟩
  split
  · intro hmem
    obtain ⟨i, hi, hzero⟩ := List.mem_map.mp hmem
    exact ne_zero_of_lt_cwdEnd ((List.mem_range.mp hi).trans_le (Nat.min_le_left ..)) hzero
  · decide

theorem length_pwdString_le (cwd : ℕ → UInt8) : (pwdString cwd).length ≤ 260 := by
  unfold pwdString
  split
  · simp only [List.length_append, List.length_map, List.length_range, List.length_cons,
      List.length_nil]
    omega
  · simp

/-! ## What BootInfo carries -/

/-- The bytes of an argument that reach the buffer: 256 at most, the terminator among them. -/
def cutArg (arg : CString) : List UInt8 := if arg.length < 256 then arg ++ [0] else arg.take 256

theorem length_cutArg_le (arg : CString) : (cutArg arg).length ≤ 256 := by
  unfold cutArg
  split
  · rw [List.length_append, List.length_singleton]
    omega
  · rw [List.length_take]
    omega

/-- An argument that is too long is cut off, without a terminator. -/
theorem copyArg_full {done rest : CString} {pre : List UInt8} {n : ℕ} (hnul : 0 ∉ rest)
    (hn : n ≤ rest.length) (hroom : pre.length + n ≤ 2047) :
    copyArg (done ++ rest) n done.length (ofList pre) pre.length =
      (ofList (pre ++ rest.take n), (pre ++ rest.take n).length) := by
  induction n generalizing done rest pre with
  | zero => simp [copyArg]
  | succ n ih =>
    cases rest with
    | nil => cases hn
    | cons c rest =>
      have hwp : pre.length < argvBufLen - 1 := by
        simp only [argvBufLen]
        omega
      have hbyte : byteAt (done ++ c :: rest) done.length = c := byteAt_append done (c :: rest) 0
      have hc : c ≠ 0 := fun h => hnul (by simp [h])
      rw [copyArg, if_pos hwp]
      simp only [hbyte, if_neg hc, update_ofList]
      have hrest := @ih (done ++ [c]) rest (pre ++ [c]) (fun h => hnul (List.mem_cons_of_mem c h))
        (Nat.le_of_succ_le_succ hn) (by rw [List.length_append, List.length_singleton]; omega)
      simpa [List.append_assoc] using hrest

theorem copyArg_cut {arg : CString} {pre : List UInt8} (hnul : 0 ∉ arg)
    (hroom : pre.length + 256 ≤ 2047) :
    copyArg arg 256 0 (ofList pre) pre.length =
      (ofList (pre ++ cutArg arg), (pre ++ cutArg arg).length) := by
  unfold cutArg
  split
  case isTrue hlt => exact @copyArg_eq [] arg pre 256 hnul hlt (by omega)
  case isFalse hge => exact @copyArg_full [] arg pre 256 hnul (by omega) hroom

/-- A few arguments at the front are all copied. -/
theorem collectArgv_append {front back : List CString} {argc : ℕ} {pre : List UInt8}
    (hnul : ∀ arg ∈ front, 0 ∉ arg) (hcount : argc + front.length < 128)
    (hroom : pre.length + 256 * front.length < 2047) :
    collectArgv (front ++ back) argc (ofList pre) pre.length =
      collectArgv back (argc + front.length) (ofList (pre ++ front.flatMap cutArg))
        (pre ++ front.flatMap cutArg).length := by
  induction front generalizing argc pre with
  | nil => simp
  | cons arg front ih =>
    rw [List.length_cons] at hcount hroom ⊢
    have hcut := length_cutArg_le arg
    have hgo : ¬ (128 ≤ argc + 1 ∨ argvBufLen - 1 ≤ (pre ++ cutArg arg).length) := by
      rw [List.length_append]
      simp only [argvBufLen]
      omega
    rw [List.cons_append, collectArgv]
    simp only [copyArg_cut (hnul arg (List.mem_cons_self ..)) (show pre.length + 256 ≤ 2047 by omega),
      if_neg hgo]
    rw [ih (fun a ha => hnul a (List.mem_cons_of_mem arg ha)) (by omega)
      (by rw [List.length_append]; omega), List.flatMap_cons, List.append_assoc]
    congr 1
    omega

theorem argc_le_collectArgv (args : List CString) (argc : ℕ) (buf : ℕ → UInt8) (wp : ℕ) :
    argc ≤ (collectArgv args argc buf wp).argc := by
  induction args generalizing argc buf wp with
  | nil => exact Nat.le_refl argc
  | cons arg args ih =>
    rw [collectArgv]
    dsimp only
    split
    · exact Nat.le_succ argc
    · exact (Nat.le_succ argc).trans (ih ..)

/-- A few arguments are all counted and copied. -/
theorem encodeArgv_short {args : List CString} (hnul : ∀ arg ∈ args, 0 ∉ arg)
    (hlen : args.length ≤ 2) :
    encodeArgv args = { argc := args.length, argvBuf := ofList (args.flatMap cutArg) } := by
  have h := @collectArgv_append args [] 0 [] hnul (by omega) (by rw [List.length_nil]; omega)
  rw [List.append_nil, Nat.zero_add, List.nil_append] at h
  exact h

theorem three_le_argc {args : List CString} (hnul : ∀ arg ∈ args, 0 ∉ arg) (hlen : 3 ≤ args.length) :
    3 ≤ (encodeArgv args).argc := by
  have hfront : (args.take 3).length = 3 := by
    rw [List.length_take]
    omega
  have h := @collectArgv_append (args.take 3) (args.drop 3) 0 []
    (fun arg ha => hnul arg (List.mem_of_mem_take ha)) (by omega) (by rw [List.length_nil]; omega)
  rw [List.take_append_drop, hfront, Nat.zero_add] at h
  have hle := argc_le_collectArgv (args.drop 3) 3 (ofList ([] ++ (args.take 3).flatMap cutArg))
    ([] ++ (args.take 3).flatMap cutArg).length
  rw [← h] at hle
  exact hle

theorem ofList_append_zero (l : List UInt8) : ofList (l ++ [0]) = ofList l := by
  funext i
  simp only [ofList, List.getD_eq_getElem?_getD]
  rcases Nat.lt_or_ge i l.length with hlt | hge
  · rw [List.getElem?_append_left hlt]
  · rw [List.getElem?_append_right hge, List.getElem?_eq_none hge]
    cases i - l.length with
    | zero => rfl
    | succ k => rfl

/-- The arguments reach the other side one by one: none is empty, and each but the last comes
with its terminator. -/
def Separate (args : List CString) : Prop :=
  [] ∉ args ∧ ∀ arg ∈ args.dropLast, arg.length < 256

theorem take_of_short {arg : CString} (h : arg.length < 256) : arg.take 256 = arg :=
  List.take_of_length_le h.le

/-- When only the last argument is cut off, the buffer holds the cut arguments with their
terminators. -/
theorem ofList_flatMap_cutArg {args : List CString} (pre : List UInt8)
    (h : ∀ arg ∈ args.dropLast, arg.length < 256) :
    ofList (pre ++ args.flatMap cutArg) = ofList (pre ++ joined (args.map (List.take 256))) := by
  induction args generalizing pre with
  | nil => rfl
  | cons a args ih =>
    rw [List.flatMap_cons, List.map_cons, joined_cons]
    by_cases hshort : a.length < 256
    · have htail : ∀ arg ∈ args.dropLast, arg.length < 256 := by
        intro arg harg
        cases args with
        | nil => cases harg
        | cons b rest => exact h arg (List.mem_cons_of_mem a harg)
      have hrest := ih (pre ++ (a ++ [0])) htail
      rw [cutArg, if_pos hshort, take_of_short hshort]
      simpa only [List.append_assoc] using hrest
    · cases args with
      | nil =>
        rw [cutArg, if_neg hshort]
        simp only [joined, List.flatMap_nil, List.map_nil, List.append_nil]
        rw [← List.append_assoc, ofList_append_zero]
      | cons b rest => exact absurd (h a (List.mem_cons_self ..)) hshort

theorem length_joined_le {args : List CString} (h : ∀ arg ∈ args, arg.length ≤ 256) :
    (joined args).length ≤ 257 * args.length := by
  induction args with
  | nil => exact Nat.le_refl 0
  | cons arg args ih =>
    have hrest := ih fun a ha => h a (List.mem_cons_of_mem arg ha)
    have hfirst := h arg (List.mem_cons_self ..)
    rw [joined_cons, List.length_append, List.length_append, List.length_singleton, List.length_cons]
    omega

theorem not_mem_take {arg : CString} (h : 0 ∉ arg) (n : ℕ) : 0 ∉ arg.take n :=
  fun hmem => h (List.mem_of_mem_take hmem)

theorem nil_mem_map_take_iff {args : List CString} :
    [] ∈ args.map (List.take 256) ↔ [] ∈ args := by
  rw [List.mem_map]
  constructor
  · rintro ⟨arg, harg, htake⟩
    rcases List.take_eq_nil_iff.mp htake with h | h
    · cases h
    · rwa [← h]
  · intro h
    exact ⟨[], h, rfl⟩

/-- What the decoder finds of up to two arguments: the arguments, cut to 256 bytes, if they are
separate, and fewer strings if they are not. -/
theorem carried {args : List CString} (hnul : ∀ arg ∈ args, 0 ∉ arg) (hlen : args.length ≤ 2) :
    ∃ strs : List CString, (∀ s ∈ strs, 0 ∉ s) ∧ (joined strs).length ≤ 514 ∧ strs.length ≤ 2 ∧
      ofList (args.flatMap cutArg) = ofList (joined strs) ∧
      (Separate args ∧ texts strs = args.map (List.take 256) ∨
        ¬ Separate args ∧ (texts strs).length < args.length) := by
  by_cases hshort : ∀ arg ∈ args.dropLast, arg.length < 256
  · have hjoined := @length_joined_le (args.map (List.take 256)) fun s hs => by
      obtain ⟨arg, -, rfl⟩ := List.mem_map.mp hs
      exact List.length_take_le ..
    rw [List.length_map] at hjoined
    refine ⟨args.map (List.take 256), fun s hs => ?_, by omega, by rwa [List.length_map],
      ofList_flatMap_cutArg [] hshort, ?_⟩
    · obtain ⟨arg, harg, rfl⟩ := List.mem_map.mp hs
      exact not_mem_take (hnul arg harg) 256
    · by_cases hempty : [] ∈ args
      · refine .inr ⟨fun hsep => hsep.1 hempty, ?_⟩
        have hlt := length_texts_lt (nil_mem_map_take_iff.mpr hempty)
        rwa [List.length_map] at hlt
      · exact .inl ⟨⟨hempty, hshort⟩, texts_eq_self (nil_mem_map_take_iff.not.mpr hempty)⟩
  · -- the first of two arguments runs into the second
    have hsep : ¬ Separate args := fun h => hshort h.2
    match args, hlen with
    | [], _ => exact absurd (fun _ h => by cases h) hshort
    | [a], _ => exact absurd (fun _ h => by cases h) hshort
    | [a, b], _ =>
      have hlong : ¬ a.length < 256 := fun h => hshort fun arg harg => by
        rw [List.mem_singleton.mp harg]
        exact h
      refine ⟨[a.take 256 ++ b.take 256], fun s hs => ?_, ?_, by simp, ?_, .inr ⟨hsep, ?_⟩⟩
      · rw [List.mem_singleton.mp hs, List.mem_append, not_or]
        exact ⟨not_mem_take (hnul a (by simp)) 256, not_mem_take (hnul b (by simp)) 256⟩
      · simp only [joined, List.flatMap_cons, List.flatMap_nil, List.append_nil, List.length_append,
          List.length_take, List.length_singleton]
        omega
      · have hlast := @ofList_flatMap_cutArg [b] (a.take 256) (fun _ h => by cases h)
        rw [List.flatMap_cons, cutArg, if_neg hlong, hlast]
        simp [joined]
      · exact (List.length_filter_le _ _).trans_lt (by simp)

/-! ## What the builder leaves -/

section Built

variable {info : ExecInfo} {mem : ℕ → UInt8} {strs : List CString}

/-- The memory of the strings, `argv` first. -/
def withStrings (info : ExecInfo) (mem : ℕ → UInt8) (strs : List CString) : Decoded :=
  (strs ++ [homeStr, ps1Str, pwdString info.cwd]).foldl Decoded.push (beforeStrings mem)

theorem argvPtrs_foldl_push (strs : List CString) (d : Decoded) :
    ∃ ptrs, (strs.foldl Decoded.push d).argvPtrs = d.argvPtrs ++ ptrs ∧
      ptrs.length = strs.length := by
  induction strs generalizing d with
  | nil => exact ⟨[], (List.append_nil _).symm, rfl⟩
  | cons s strs ih =>
    obtain ⟨ptrs, hptrs, hlen⟩ := ih (d.push s)
    refine ⟨(d.push s).wp :: ptrs, ?_, by rw [List.length_cons, List.length_cons, hlen]⟩
    rw [List.foldl_cons, hptrs, argvPtrs_push, List.append_assoc]
    rfl

/-- The words and the random bytes are put into memory that has the strings already. -/
theorem buildStack_eq
    (hdec : decodeArgv info.toBootInfo mem = strs.foldl Decoded.push (beforeStrings mem)) :
    ∃ ptrs home ps1 pwd, (withStrings info mem strs).argvPtrs = ptrs ++ [home, ps1, pwd] ∧
      ptrs.length = strs.length ∧
      buildStack info mem = Store.write (Store.write (withStrings info mem strs).mem initialSp
        (Store.wordBytes (vector info ptrs ps1 pwd home))) randomVa randomBytes := by
  obtain ⟨ptrs, hptrs, hlen⟩ := argvPtrs_foldl_push strs (beforeStrings mem)
  rw [withStrings, List.foldl_append]
  generalize strs.foldl Decoded.push (beforeStrings mem) = d at hdec hptrs ⊢
  have hargv : d.argvPtrs = ptrs := hptrs
  let home := d.push homeStr
  let ps1 := home.push ps1Str
  let pwd := ps1.push (pwdString info.cwd)
  refine ⟨ptrs, home.wp, ps1.wp, pwd.wp, ?_, hlen, ?_⟩
  · show pwd.argvPtrs = _
    rw [argvPtrs_push, argvPtrs_push, argvPtrs_push, hargv, List.append_assoc, List.append_assoc]
    rfl
  · rw [← hargv, buildStack, hdec]
    rfl

/-! ### The vector -/

theorem length_vector (ptrs : List ℕ) (ps1 pwd home : ℕ) :
    (vector info ptrs ps1 pwd home).length = ptrs.length + 24 := by
  simp [vector, auxv]

theorem vector_argv {ptrs : List ℕ} {ps1 pwd home i : ℕ} (hi : i < ptrs.length) :
    (vector info ptrs ps1 pwd home).getD (1 + i) 0 = BitVec.ofNat 64 (ptrs.getD i 0) := by
  rw [Nat.add_comm, vector, List.append_assoc, List.cons_append, List.getD_cons_succ,
    List.getD_append _ _ _ _ (by simpa using hi), List.getD_eq_getElem _ _ (by simpa using hi),
    List.getElem_map, List.getD_eq_getElem _ _ hi]

/-- The words behind `argv`. -/
theorem vector_behind {ptrs : List ℕ} {ps1 pwd home i : ℕ} :
    (vector info ptrs ps1 pwd home).getD (ptrs.length + 1 + i) 0 =
      ([0, BitVec.ofNat 64 ps1, BitVec.ofNat 64 pwd, BitVec.ofNat 64 home, 0] ++
        auxv info).getD i 0 := by
  have hlen : (BitVec.ofNat 64 info.argc :: ptrs.map (BitVec.ofNat 64)).length =
      ptrs.length + 1 := by simp
  rw [vector, List.append_assoc, List.getD_append_right _ _ _ _ (by omega), hlen,
    Nat.add_sub_cancel_left]

/-- Up to two arguments, the random bytes leave the vector alone. -/
theorem wordOf_built {m : ℕ → UInt8} {ws : List (BitVec 64)} (hlen : ws.length ≤ 26) {i : ℕ}
    (hi : i < ws.length) :
    wordOf (Store.write (Store.write m initialSp (Store.wordBytes ws)) randomVa randomBytes) i =
      ws.getD i 0 := by
  rw [wordOf, Store.wordAt_write]
  · exact Store.wordAt_of_holds (Store.holds_write _ _ _) hi
  · refine .inl ?_
    simp only [randomVa]
    omega

theorem allocOf_le {s : CString} {n : ℕ} (h : s.length ≤ n) : allocOf s ≤ n + 8 := by
  unfold allocOf
  omega

theorem sum_allocOf_le (h : ∀ s ∈ strs, s.length ≤ 256) :
    (strs.map allocOf).sum ≤ 264 * strs.length := by
  induction strs with
  | nil => exact Nat.le_refl 0
  | cons s strs ih =>
    have hfirst := allocOf_le (h s (List.mem_cons_self ..))
    have hrest := ih fun t ht => h t (List.mem_cons_of_mem s ht)
    rw [List.map_cons, List.sum_cons, List.length_cons]
    omega

/-- Every string lies on the page, above the random bytes, when the arguments are few and cut. -/
theorem laid_withStrings (hcount : strs.length ≤ 2) (hshort : ∀ s ∈ strs, s.length ≤ 256) :
    Laid (initialSp + 4096 - 8) (strs ++ [homeStr, ps1Str, pwdString info.cwd])
        (withStrings info mem strs) ∧
      initialSp + 224 ≤ (withStrings info mem strs).wp := by
  have hargs := sum_allocOf_le hshort
  have hpwd := allocOf_le (length_pwdString_le info.cwd)
  have hhome : allocOf homeStr = 8 := rfl
  have hps1 : allocOf ps1Str = 16 := rfl
  have hsum : ((strs ++ [homeStr, ps1Str, pwdString info.cwd]).map allocOf).sum ≤ 820 := by
    simp only [List.map_append, List.sum_append, List.map_cons, List.map_nil, List.sum_cons,
      List.sum_nil]
    omega
  have hroom : 820 ≤ (beforeStrings mem).wp := by
    simp only [beforeStrings, initialSp]
    omega
  have hlaid := (laid_beforeStrings mem).foldl (hsum.trans hroom)
  rw [List.nil_append] at hlaid
  refine ⟨hlaid, ?_⟩
  have hwp := hlaid.wp
  simp only [withStrings, initialSp] at hwp ⊢
  omega

theorem exists_region {ptrs : List ℕ} (hlen : strs.length = ptrs.length) {p : ℕ} (hp : p ∈ ptrs) :
    ∃ n, (p, n) ∈ regions strs ptrs := by
  induction ptrs generalizing strs with
  | nil => cases hp
  | cons q ptrs ih =>
    cases strs with
    | nil => cases hlen
    | cons s strs =>
      rcases List.mem_cons.mp hp with rfl | hp
      · exact ⟨s.length + 1, List.mem_cons_self ..⟩
      · obtain ⟨n, hn⟩ := ih (Nat.succ.inj hlen) hp
        exact ⟨n, List.mem_cons_of_mem _ hn⟩

/-- The page as the builder leaves it, with the strings at these pointers. -/
structure Built (info : ExecInfo) (strs : List CString) (ptrs : List ℕ) (home ps1 pwd : ℕ)
    (m : ℕ → UInt8) : Prop where
  words : ∀ i, i < ptrs.length + 24 → wordOf m i = (vector info ptrs ps1 pwd home).getD i 0
  strings : List.Forall₂ (StringAt m) (strs ++ [homeStr, ps1Str, pwdString info.cwd])
    (ptrs ++ [home, ps1, pwd])
  random : Store.Holds m randomVa randomBytes
  below : (regions (strs ++ [homeStr, ps1Str, pwdString info.cwd])
    (ptrs ++ [home, ps1, pwd])).Pairwise fun p q => q.1 + q.2 ≤ p.1
  above : ∀ p ∈ regions (strs ++ [homeStr, ps1Str, pwdString info.cwd]) (ptrs ++ [home, ps1, pwd]),
    initialSp + 224 ≤ p.1 ∧ p.1 + p.2 ≤ initialSp + 4096

/-- The vector and the random bytes are written below the strings. -/
theorem exists_built (hcount : strs.length ≤ 2)
    (hdec : decodeArgv info.toBootInfo mem = strs.foldl Decoded.push (beforeStrings mem))
    (hshort : ∀ s ∈ strs, s.length ≤ 256) :
    ∃ ptrs home ps1 pwd, ptrs.length = strs.length ∧
      Built info strs ptrs home ps1 pwd (buildStack info mem) := by
  obtain ⟨ptrs, home, ps1, pwd, hptrs, hlen, hbuild⟩ := buildStack_eq hdec
  obtain ⟨hlaid, hlow⟩ := @laid_withStrings info mem strs hcount hshort
  have hregion := hlaid.inside
  have hstrings := hlaid.strings
  have hbelow := hlaid.below
  rw [hptrs] at hregion hstrings hbelow
  have habove : ∀ p ∈ regions (strs ++ [homeStr, ps1Str, pwdString info.cwd])
      (ptrs ++ [home, ps1, pwd]), initialSp + 224 ≤ p.1 ∧ p.1 + p.2 ≤ initialSp + 4096 := by
    intro p hp
    have hin := hregion p hp
    omega
  rw [hbuild]
  refine ⟨ptrs, home, ps1, pwd, hlen, fun i hi => ?_, ?_, Store.holds_write _ _ _, hbelow, habove⟩
  · exact wordOf_built (by rw [length_vector]; omega) (by rwa [length_vector])
  · refine mem_regions_of_forall₂ hstrings fun s p hat hp => ?_
    have hhigh := (habove _ hp).1
    dsimp only at hhigh
    rw [stringAt_iff_holds] at hat ⊢
    refine (hat.write (.inr ?_)).write (.inr ?_)
    · rw [Store.length_wordBytes, length_vector]
      dsimp only
      omega
    · simp only [randomVa, randomBytes, List.length_cons, List.length_nil]
      omega

section Reader

variable {m : ℕ → UInt8} {ptrs : List ℕ} {home ps1 pwd : ℕ}

/-- The words behind `argv`, as they are read. -/
theorem Built.behind (h : Built info strs ptrs home ps1 pwd m) (i : ℕ) (hi : i < 23) :
    wordOf m (ptrs.length + 1 + i) =
      ([0, BitVec.ofNat 64 ps1, BitVec.ofNat 64 pwd, BitVec.ofNat 64 home, 0] ++
        auxv info).getD i 0 := (h.words _ (by omega)).trans vector_behind

theorem Built.auxv (h : Built info strs ptrs home ps1 pwd m) {i : ℕ} (hi : i < 18) :
    wordOf m (ptrs.length + 6 + i) = (auxv info).getD i 0 := by
  have hword := h.behind (5 + i) (by omega)
  rw [List.getD_append_right _ _ _ _ (by simp)] at hword
  simpa [Nat.add_assoc, Nat.add_comm, Nat.add_left_comm] using hword

/-- Every pointer is an address on the page. -/
theorem Built.bound (h : Built info strs ptrs home ps1 pwd m) {p : ℕ}
    (hp : p ∈ ptrs ++ [home, ps1, pwd]) : initialSp + 224 ≤ p ∧ p < 2 ^ 64 := by
  obtain ⟨n, hn⟩ := exists_region h.strings.length_eq hp
  have hin := h.above _ hn
  simp only [initialSp] at hin ⊢
  omega

theorem Built.toNat_ofNat (h : Built info strs ptrs home ps1 pwd m) {p : ℕ}
    (hp : p ∈ ptrs ++ [home, ps1, pwd]) : (BitVec.ofNat 64 p).toNat = p := by
  rw [BitVec.toNat_ofNat, Nat.mod_eq_of_lt (h.bound hp).2]

/-- The pointers that are read are those of the strings. -/
theorem Built.pointers_eq (h : Built info strs ptrs home ps1 pwd m) :
    pointers ptrs.length m = ptrs ++ [home, ps1, pwd] := by
  have hargv : (List.range ptrs.length).map (fun i => (wordOf m (1 + i)).toNat) = ptrs := by
    refine List.ext_getElem (by simp) fun i hi hi' => ?_
    rw [List.getElem_map, List.getElem_range, h.words _ (by omega), vector_argv hi',
      List.getD_eq_getElem _ _ hi']
    exact h.toNat_ofNat (List.mem_append_left _ (List.getElem_mem hi'))
  have hhome : (wordOf m (ptrs.length + 4)).toNat = home :=
    (congrArg BitVec.toNat (h.behind 3 (by omega))).trans (h.toNat_ofNat (by simp))
  have hps1 : (wordOf m (ptrs.length + 2)).toNat = ps1 :=
    (congrArg BitVec.toNat (h.behind 1 (by omega))).trans (h.toNat_ofNat (by simp))
  have hpwd : (wordOf m (ptrs.length + 3)).toNat = pwd :=
    (congrArg BitVec.toNat (h.behind 2 (by omega))).trans (h.toNat_ofNat (by simp))
  rw [pointers, hargv, hhome, hps1, hpwd]

theorem Built.argv_ne_zero (h : Built info strs ptrs home ps1 pwd m) {i : ℕ}
    (hi : i < ptrs.length) : wordOf m (1 + i) ≠ 0 := by
  rw [h.words _ (by omega), vector_argv hi, List.getD_eq_getElem _ _ hi]
  have hmem := List.mem_append_left [home, ps1, pwd] (List.getElem_mem hi)
  intro hzero
  have hval := congrArg BitVec.toNat hzero
  rw [h.toNat_ofNat hmem] at hval
  have hlow := (h.bound hmem).1
  simp only [initialSp, BitVec.ofNat_eq_ofNat, BitVec.toNat_ofNat] at hlow hval
  omega

/-- Vector, random bytes and strings come one behind the other. -/
theorem Built.apart (h : Built info strs ptrs home ps1 pwd m) (hcount : ptrs.length ≤ 2) :
    (parts ptrs.length (strs ++ [homeStr, ps1Str, pwdString info.cwd]) m).Pairwise Store.Apart := by
  rw [parts, h.pointers_eq]
  refine List.pairwise_cons.mpr ⟨fun p hp => .inl ?_, List.pairwise_cons.mpr ⟨fun p hp => .inl ?_, ?_⟩⟩
  · rcases List.mem_cons.mp hp with rfl | hp
    · simp only [randomVa]
      omega
    · have hhigh := (h.above p hp).1
      dsimp only
      omega
  · have hhigh := (h.above p hp).1
    simp only [randomVa]
    omega
  · exact h.below.imp Or.inr

theorem Built.page (h : Built info strs ptrs home ps1 pwd m) (hcount : ptrs.length ≤ 2)
    {p : ℕ × ℕ} (hp : p ∈ parts ptrs.length (strs ++ [homeStr, ps1Str, pwdString info.cwd]) m) :
    initialSp ≤ p.1 ∧ p.1 + p.2 ≤ initialSp + 4096 := by
  rw [parts, h.pointers_eq] at hp
  rcases List.mem_cons.mp hp with rfl | hp
  · dsimp only
    omega
  · rcases List.mem_cons.mp hp with rfl | hp
    · simp only [randomVa]
      omega
    · have hhigh := h.above p hp
      omega

end Reader

theorem environment_nulFree (cwd : ℕ → UInt8) : ∀ s ∈ [homeStr, ps1Str, pwdString cwd], 0 ∉ s := by
  intro s hs
  simp only [List.mem_cons, List.not_mem_nil, or_false] at hs
  rcases hs with rfl | rfl | rfl
  · decide
  · decide
  · exact pwdString_nulFree cwd

/-- **Up to two strings that arrive as they were counted are found intact.** -/
theorem wellFormed_built (hargc : info.argc = strs.length) (hcount : strs.length ≤ 2)
    (hdec : decodeArgv info.toBootInfo mem = strs.foldl Decoded.push (beforeStrings mem))
    (hshort : ∀ s ∈ strs, s.length ≤ 256) (hnul : ∀ s ∈ strs, 0 ∉ s) :
    WellFormed info strs (buildStack info mem) := by
  obtain ⟨ptrs, home, ps1, pwd, hlen, h⟩ := exists_built hcount hdec hshort
  rw [← hlen] at hargc hcount
  have hend : wordOf (buildStack info mem) (ptrs.length + 1) = 0 := h.behind 0 (by omega)
  have henv : wordOf (buildStack info mem) (ptrs.length + 5) = 0 := h.behind 4 (by omega)
  rw [← hargc] at hend henv
  refine ⟨h.words 0 (by omega), fun i hi => h.argv_ne_zero (by omega), hend, henv, fun i hi => ?_,
    ?_, fun s hs => ?_, h.random, ?_, fun p hp => ?_⟩
  · rw [hargc]
    exact h.auxv hi
  · rw [hargc, h.pointers_eq]
    exact h.strings
  · rcases List.mem_append.mp hs with hs | hs
    · exact hnul s hs
    · exact environment_nulFree info.cwd s hs
  · rw [hargc]
    exact h.apart hcount
  · rw [hargc] at hp
    exact h.page hcount hp

end Built

/-! ## The statement -/

/-- The `BootInfo` of a program, for these arguments. -/
def execInfo (args : List CString) (programEntry phdrAddr phentSize phnum : BitVec 64)
    (cwd : ℕ → UInt8) : ExecInfo :=
  { encodeArgv args with programEntry, phdrAddr, phentSize, phnum, cwd }

/-- **The initial stack is well formed exactly for up to two separate arguments.**  With three, the
random bytes lie on the end of the vector; arguments that are lost or run together leave `argv`
shorter than `argc` says. -/
theorem wellFormed_iff {args : List CString} (hnul : ∀ arg ∈ args, 0 ∉ arg)
    (programEntry phdrAddr phentSize phnum : BitVec 64) (cwd mem : ℕ → UInt8) :
    WellFormed (execInfo args programEntry phdrAddr phentSize phnum cwd)
        (args.map (List.take 256))
        (buildStack (execInfo args programEntry phdrAddr phentSize phnum cwd) mem) ↔
      args.length ≤ 2 ∧ Separate args := by
  generalize hinfo : execInfo args programEntry phdrAddr phentSize phnum cwd = info
  have hboot : info.toBootInfo = encodeArgv args := by rw [← hinfo]; rfl
  have hargc : info.argc = (encodeArgv args).argc := by rw [← hboot]
  by_cases hlen : args.length ≤ 2
  · obtain ⟨strs, hstrs, hroom, hcount, hbuf, hcases⟩ := carried hnul hlen
    rw [encodeArgv_short hnul hlen, hbuf] at hboot
    have hcount' : (texts strs).length ≤ 2 := (List.length_filter_le _ _).trans hcount
    have hdec : decodeArgv info.toBootInfo mem =
        (texts strs).foldl Decoded.push (beforeStrings mem) := by
      rw [hboot]
      refine @decodeLoop_eq strs [] 128 (beforeStrings mem) hstrs ?_ (by omega)
      rw [List.length_nil]
      omega
    have hargs : info.argc = args.length := by rw [hboot]
    rcases hcases with ⟨hsep, htexts⟩ | ⟨hsep, hfew⟩
    · refine iff_of_true ?_ ⟨hlen, hsep⟩
      rw [htexts] at hdec hcount'
      refine wellFormed_built (by rw [hargs, List.length_map]) hcount' hdec (fun s hs => ?_)
        fun s hs => ?_
      · obtain ⟨arg, -, rfl⟩ := List.mem_map.mp hs
        exact List.length_take_le ..
      · obtain ⟨arg, harg, rfl⟩ := List.mem_map.mp hs
        exact not_mem_take (hnul arg harg) 256
    · refine iff_of_false (fun h => ?_) fun h => hsep h.2
      -- the terminator of `argv` stands where another argument is expected
      obtain ⟨ptrs, home, ps1, pwd, -, hptrs, hbuild⟩ := buildStack_eq hdec
      refine h.argv ptrs.length (by omega) ?_
      rw [hbuild, wordOf_built (by rw [length_vector]; omega) (by rw [length_vector]; omega),
        Nat.add_comm]
      exact @vector_behind info ptrs ps1 pwd home 0
  · refine iff_of_false (fun h => ?_) fun h => hlen h.1
    have hthree := three_le_argc hnul (by omega)
    have htwo := h.argc_le
    omega

/-- `ls -l`. -/
theorem wellFormed_iff_ls :
    WellFormed (execInfo [[0x6c, 0x73], [0x2d, 0x6c]] 0x400000 0x400040 56 2 fun _ => 0)
      [[0x6c, 0x73], [0x2d, 0x6c]]
      (buildStack (execInfo [[0x6c, 0x73], [0x2d, 0x6c]] 0x400000 0x400040 56 2 fun _ => 0)
        fun _ => 0) :=
  (wellFormed_iff (by decide) 0x400000 0x400040 56 2 (fun _ => 0) fun _ => 0).mpr
    ⟨by decide, by decide, by decide⟩

/-- `ls -l -a /`. -/
def fourArgs : List CString := [[0x6c, 0x73], [0x2d, 0x6c], [0x2d, 0x61], [0x2f]]

/-- **Four arguments overwrite the end of the vector**: where `AT_NULL` should stand, the new
program finds random bytes. -/
theorem fourArgs_not_wellFormed :
    ¬ WellFormed (execInfo fourArgs 0x400000 0x400040 56 2 fun _ => 0)
      (fourArgs.map (List.take 256))
      (buildStack (execInfo fourArgs 0x400000 0x400040 56 2 fun _ => 0) fun _ => 0) := by
  intro h
  have hnull := h.auxv 16 (by decide)
  revert hnull
  decide +kernel

end QuackOS.Linux
