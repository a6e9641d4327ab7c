import QuackOS.Lib.Cursor
import QuackOS.Lib.LineEdit
import QuackOS.Lib.Run
import QuackOS.Linux.Files

/-!
# Canonical reads from the console

`console_read_canonical` of `liblinux/src/fs.rs` with the arrays it works in, over an endless
sequence of answers of `console_read`: a byte, or nothing yet.

* `Reader` — the line buffer of a task between its calls;
* `keyOf`, `discipline` — what the line discipline makes of the bytes that arrive;
* `sysRead_canonical` — the read of `Linux.Files` is this one;
* `canonical_reads` — **whatever the sizes of the reads, they deliver what the line discipline
  delivers, and stay inside their arrays**.
-/

namespace QuackOS.Linux

open Bytes LineEdit

/-! ## The read -/

/-- `task.line_buf`, `line_len` and `line_pos`, with user memory and the number of answers of
`console_read` so far. -/
structure Reader where
  lineBuf : List UInt8
  lineLen : ℕ
  linePos : ℕ
  mem : Mem
  answered : ℕ

/-- How the loop of `console_read_canonical` ends. -/
inductive LineEnd
  | eof
  | line (line : Cursor UInt8)

/-- The loop of `console_read_canonical` from the answer `i` on, for so many answers; `none` while
no line is complete.  Without a byte the task yields and asks again. -/
def lineLoop (iflag : BitVec 32) (answers : ℕ → Option UInt8) :
    ℕ → ℕ → Cursor UInt8 → Except Panic (Option (LineEnd × ℕ))
  | 0, _, _ => .ok none
  | fuel + 1, i, line =>
    match answers i with
    | none => lineLoop iflag answers fuel (i + 1) line
    | some b =>
      let b := if b = 0x0D ∧ iflag &&& icrnl ≠ 0 then 0x0A else b
      if b = 0x7F ∨ b = 0x08 then lineLoop iflag answers fuel (i + 1) line.pop
      else if b = 0x04 then .ok (some (if line.len = 0 then .eof else .line line, i + 1))
      else if b = 0x0A then do
        let line ← line.push .outOfRange b
        return some (.line line, i + 1)
      else if line.len < line.buf.length - 1 then do
        let line ← line.push .outOfRange b
        lineLoop iflag answers fuel (i + 1) line
      else lineLoop iflag answers fuel (i + 1) line

/-- `n` bytes of an array from `i` on. -/
def arraySlice (buf : List UInt8) (i n : ℕ) : Except Panic (List UInt8) :=
  if i + n ≤ buf.length then .ok ((buf.drop i).take n) else .error .outOfRange

/-- `dst[..len].copy_from_slice(&line[..len])`. -/
def copyFront (dst : List UInt8) (line : Cursor UInt8) : Except Panic (List UInt8) :=
  if line.len ≤ dst.length ∧ line.len ≤ line.buf.length then
    .ok (line.items ++ dst.drop line.len)
  else .error .outOfRange

/-- `console_read_canonical`, without the echo; `none` while it waits. -/
def Reader.readCanonical (iflag : BitVec 32) (answers : ℕ → Option UInt8) (fuel : ℕ) (s : Reader)
    (bufPtr : Word) (count : ℕ) : Except Panic (Option (Word × Reader)) :=
  if s.linePos < s.lineLen then do
    let n := min (s.lineLen - s.linePos) count
    let bs ← arraySlice s.lineBuf s.linePos n
    return some (BitVec.ofNat 64 n,
      { s with linePos := s.linePos + n, mem := copyOut s.mem bufPtr bs })
  else do
    match ← lineLoop iflag answers fuel s.answered (Cursor.blank consoleBuf 0) with
    | none => return none
    | some (.eof, answered) => return some (0, { s with answered })
    | some (.line line, answered) =>
      let lineBuf ← copyFront s.lineBuf line
      let n := min line.len count
      let bs ← arraySlice line.buf 0 n
      return some (BitVec.ofNat 64 n,
        { lineBuf, lineLen := line.len, linePos := n, mem := copyOut s.mem bufPtr bs, answered })

/-- `sys_read` on a console in canonical mode. -/
def Reader.sysRead (iflag : BitVec 32) (answers : ℕ → Option UInt8) (fuel : ℕ) (s : Reader)
    (bufPtr : Word) (count : ℕ) : Except Panic (Option (Word × Reader)) :=
  if count = 0 then .ok (some (0, s)) else s.readCanonical iflag answers fuel bufPtr count

/-- What a call returned: the bytes in the caller's buffer, or the end of the file. -/
def returned (ret : Word) (mem : Mem) (bufPtr : Word) : List (Delivery UInt8) :=
  if ret = 0 then [.eof] else (copyFrom mem bufPtr ret.toNat).map .item

/-- The arguments of a read. -/
structure ReadCall where
  bufPtr : Word
  count : ℕ

/-- What reads deliver, one after the other, up to the first that waits for longer than `fuel`
answers. -/
def reads (iflag : BitVec 32) (answers : ℕ → Option UInt8) (fuel : ℕ) :
    List ReadCall → Reader → Except Panic (List (Delivery UInt8))
  | [], _ => .ok []
  | c :: cs, s => do
    match ← s.sysRead iflag answers fuel c.bufPtr c.count with
    | none => return []
    | some (ret, s') =>
      let rest ← reads iflag answers fuel cs s'
      return returned ret s'.mem c.bufPtr ++ rest

/-! ## The line discipline -/

/-- What a byte does to the line. -/
def keyOf (iflag : BitVec 32) (b : UInt8) : Key UInt8 :=
  let b := if b = 0x0D ∧ iflag &&& icrnl ≠ 0 then 0x0A else b
  if b = 0x7F ∨ b = 0x08 then .erase
  else if b = 0x04 then .close
  else if b = 0x0A then .enter b
  else .insert b

/-- What the line discipline delivers of these bytes: lines of 4095 characters at most, and the
newline. -/
def discipline (iflag : BitVec 32) (bs : List UInt8) : List (Delivery UInt8) :=
  deliveries (consoleBuf - 1) (bs.map (keyOf iflag))

/-- The bytes that arrived with `k` answers from the answer `i` on. -/
def arrived (answers : ℕ → Option UInt8) (i k : ℕ) : List UInt8 :=
  (List.range' i k).filterMap answers

/-- What is left of a line that was delivered in part. -/
def Reader.pending (s : Reader) : List UInt8 :=
  (s.lineBuf.drop s.linePos).take (s.lineLen - s.linePos)

/-- The line buffer is an array of 4096 bytes, and line and position lie in it. -/
structure Reader.Ok (s : Reader) : Prop where
  size : s.lineBuf.length = consoleBuf
  pos_le : s.linePos ≤ s.lineLen
  len_le : s.lineLen ≤ consoleBuf

/-! ## Answers -/

section Answers

variable {iflag : BitVec 32} {answers : ℕ → Option UInt8} {i k fuel : ℕ} {e : Editor UInt8}

/-- The line after `k` answers. -/
def typed (iflag : BitVec 32) (answers : ℕ → Option UInt8) (i k : ℕ) (e : Editor UInt8) :
    Editor UInt8 :=
  Editor.run (consoleBuf - 1) ((arrived answers i k).map (keyOf iflag)) e

@[simp] theorem typed_zero : typed iflag answers i 0 e = e := rfl

theorem typed_none (h : answers i = none) :
    typed iflag answers i (k + 1) e = typed iflag answers (i + 1) k e := by
  rw [typed, arrived, List.range'_succ, List.filterMap_cons_none h]
  rfl

theorem typed_some {b : UInt8} (h : answers i = some b) :
    typed iflag answers i (k + 1) e =
      typed iflag answers (i + 1) k (e.press (consoleBuf - 1) (keyOf iflag b)) := by
  rw [typed, arrived, List.range'_succ, List.filterMap_cons_some h]
  rfl

theorem typed_add (j : ℕ) :
    typed iflag answers i (k + j) e = typed iflag answers (i + k) j (typed iflag answers i k e) := by
  rw [typed, typed, typed, arrived, arrived, arrived, ← Editor.run_append, ← List.map_append,
    ← List.filterMap_append, List.range'_append_1]

theorem typed_done (ds : List (Delivery UInt8)) (k : ℕ) (e : Editor UInt8) :
    typed iflag answers i k ⟨ds ++ e.done, e.line⟩ =
      ⟨ds ++ (typed iflag answers i k e).done, (typed iflag answers i k e).line⟩ :=
  Editor.run_done ds _ e

theorem typed_isPrefix_typed (h : k ≤ fuel) :
    (typed iflag answers i k e).done <+: (typed iflag answers i fuel e).done := by
  obtain ⟨j, rfl⟩ := Nat.exists_eq_add_of_le h
  rw [typed_add]
  exact Editor.run_prefix _ _

end Answers

/-! ## The loop -/

section Loop

variable {iflag : BitVec 32} {answers : ℕ → Option UInt8} {i fuel : ℕ} {line line' : List UInt8}
  {c c' : Cursor UInt8} {r : Option (LineEnd × ℕ)}

/-- What the loop comes to, as the line discipline has it. -/
inductive LoopEnds (iflag : BitVec 32) (answers : ℕ → Option UInt8) (i fuel : ℕ)
    (line : List UInt8) : Option (LineEnd × ℕ) → Prop
  | waits (h : ∃ line', typed iflag answers i fuel ⟨[], line⟩ = ⟨[], line'⟩) :
      LoopEnds iflag answers i fuel line none
  | eof (k : ℕ) (h : typed iflag answers i k ⟨[], line⟩ = ⟨[.eof], []⟩) :
      LoopEnds iflag answers i fuel line (some (.eof, i + k))
  | line (k : ℕ) (c : Cursor UInt8) (bs : List UInt8) (hc : c.Shows consoleBuf bs) (hbs : bs ≠ [])
      (h : typed iflag answers i k ⟨[], line⟩ = ⟨bs.map .item, []⟩) :
      LoopEnds iflag answers i fuel line (some (.line c, i + k))

/-- A round that leaves the rest to the next ones. -/
theorem LoopEnds.step (h : LoopEnds iflag answers (i + 1) fuel line' r)
    (hround : ∀ k, typed iflag answers i (k + 1) ⟨[], line⟩ =
      typed iflag answers (i + 1) k ⟨[], line'⟩) :
    LoopEnds iflag answers i (fuel + 1) line r := by
  cases h with
  | waits h => exact .waits (by rwa [hround])
  | eof k h =>
    rw [Nat.add_right_comm, Nat.add_assoc]
    exact .eof (k + 1) (by rwa [hround])
  | line k c bs hc hbs h =>
    rw [Nat.add_right_comm, Nat.add_assoc]
    exact .line (k + 1) c bs hc hbs (by rwa [hround])

/-- **The loop follows the line discipline** and stays inside `line`, which has room for a newline
behind 4095 characters. -/
theorem lineLoop_spec (hc : c.Shows consoleBuf line) (hlen : line.length ≤ consoleBuf - 1) :
    ∃ r, lineLoop iflag answers fuel i c = .ok r ∧ LoopEnds iflag answers i fuel line r := by
  induction fuel generalizing i c line with
  | zero => exact ⟨none, rfl, .waits ⟨line, rfl⟩⟩
  | succ fuel ih =>
    have hroom : line.length < consoleBuf := by
      have : consoleBuf = 4096 := rfl
      omega
    rw [lineLoop]
    cases hb : answers i with
    | none =>
      obtain ⟨r, hr, hends⟩ := @ih (i + 1) line c hc hlen
      exact ⟨r, hr, hends.step fun k => typed_none hb⟩
    | some b₀ =>
    have hround := fun k => @typed_some iflag answers i k ⟨[], line⟩ b₀ hb
    rw [keyOf] at hround
    dsimp only at hround ⊢
    -- the byte with a carriage return mapped
    generalize (if b₀ = 0x0D ∧ iflag &&& icrnl ≠ 0 then 0x0A else b₀) = b at hround ⊢
    by_cases herase : b = 0x7F ∨ b = 0x08
    · rw [if_pos herase]
      rw [if_pos herase] at hround
      obtain ⟨r, hr, hends⟩ := @ih (i + 1) line.dropLast c.pop hc.pop
        (by rw [List.length_dropLast]; omega)
      exact ⟨r, hr, hends.step hround⟩
    rw [if_neg herase]
    rw [if_neg herase] at hround
    by_cases hclose : b = 0x04
    · rw [if_pos hclose]
      rw [if_pos hclose] at hround
      by_cases hempty : c.len = 0
      · have hnil : line = [] := List.length_eq_zero_iff.mp (hc.len.symm.trans hempty)
        rw [if_pos hempty]
        refine ⟨_, rfl, .eof 1 ?_⟩
        rw [hround 0, typed_zero, hnil]
        rfl
      · have hne : line ≠ [] := by
          rintro rfl
          exact hempty hc.len
        rw [if_neg hempty]
        refine ⟨_, rfl, .line 1 c line hc hne ?_⟩
        rw [hround 0, typed_zero, Editor.press, if_neg (by simpa using hne)]
        rfl
    rw [if_neg hclose]
    rw [if_neg hclose] at hround
    by_cases henter : b = 0x0A
    · rw [if_pos henter]
      rw [if_pos henter] at hround
      obtain ⟨c', hpush, hc'⟩ := hc.push hroom Panic.outOfRange b
      refine ⟨some (.line c', i + 1), by rw [hpush]; rfl, .line 1 c' (line ++ [b]) hc' ?_ ?_⟩
      · simp
      · rw [hround 0, typed_zero]
        rfl
    rw [if_neg henter]
    rw [if_neg henter] at hround
    have hsize : c.buf.length - 1 = consoleBuf - 1 := by rw [hc.size]
    rw [hsize, hc.len]
    by_cases hcap : line.length < consoleBuf - 1
    · rw [if_pos hcap]
      obtain ⟨c', hpush, hc'⟩ := hc.push hroom Panic.outOfRange b
      obtain ⟨r, hr, hends⟩ := @ih (i + 1) (line ++ [b]) c' hc'
        (by rw [List.length_append, List.length_singleton]; omega)
      refine ⟨r, by rw [hpush]; exact hr, hends.step fun k => ?_⟩
      rw [hround, Editor.press, if_pos hcap]
    · rw [if_neg hcap]
      obtain ⟨r, hr, hends⟩ := @ih (i + 1) line c hc hlen
      refine ⟨r, hr, hends.step fun k => ?_⟩
      rw [hround, Editor.press, if_neg hcap]

end Loop

/-! ## One read -/

section Read

variable {iflag : BitVec 32} {answers : ℕ → Option UInt8} {fuel count : ℕ} {s : Reader}
  {bufPtr : Word} {mem : Mem} {bs : List UInt8}

/-- Bytes that were put into the caller's buffer are what the call returned. -/
theorem returned_copyOut {n : ℕ} (hn : bs.length = n) (hpos : 0 < n) (hlen : n ≤ consoleBuf) :
    returned (BitVec.ofNat 64 n) (copyOut mem bufPtr bs) bufPtr = bs.map .item ∧
      bs.map Delivery.item ≠ [] := by
  have hsize : consoleBuf = 4096 := rfl
  have hret : (BitVec.ofNat 64 n).toNat = n := by
    rw [BitVec.toNat_ofNat, Nat.mod_eq_of_lt (by omega)]
  have hne : BitVec.ofNat 64 n ≠ 0 := by
    intro hzero
    rw [hzero] at hret
    exact absurd hret (show 0 ≠ n by omega)
  constructor
  · rw [returned, if_neg hne, hret, ← hn, copyFrom_copyOut mem bufPtr (by omega)]
  · intro hnil
    rw [List.map_eq_nil_iff] at hnil
    rw [hnil, List.length_nil] at hn
    omega

/-- A read from a line that was delivered in part. -/
theorem readCanonical_rest (hs : s.Ok) (hrest : s.linePos < s.lineLen) :
    s.readCanonical iflag answers fuel bufPtr count =
      .ok (some (BitVec.ofNat 64 (min (s.lineLen - s.linePos) count),
        { s with
          linePos := s.linePos + min (s.lineLen - s.linePos) count
          mem := copyOut s.mem bufPtr
            ((s.lineBuf.drop s.linePos).take (min (s.lineLen - s.linePos) count)) })) := by
  have hslice : arraySlice s.lineBuf s.linePos (min (s.lineLen - s.linePos) count) =
      .ok ((s.lineBuf.drop s.linePos).take (min (s.lineLen - s.linePos) count)) := by
    refine if_pos ?_
    have := hs.size
    have := hs.len_le
    omega
  rw [Reader.readCanonical, if_pos hrest]
  dsimp only
  rw [hslice]
  rfl

/-- A read that edited a new line. -/
theorem readCanonical_line {c : Cursor UInt8} {i : ℕ} (hs : s.Ok) (hrest : ¬ s.linePos < s.lineLen)
    (hloop : lineLoop iflag answers fuel s.answered (Cursor.blank consoleBuf 0) =
      .ok (some (.line c, i))) (hc : c.Shows consoleBuf bs) :
    s.readCanonical iflag answers fuel bufPtr count =
      .ok (some (BitVec.ofNat 64 (min bs.length count),
        { lineBuf := bs ++ s.lineBuf.drop bs.length
          lineLen := bs.length
          linePos := min bs.length count
          mem := copyOut s.mem bufPtr (bs.take (min bs.length count))
          answered := i })) := by
  have hle := hc.le
  have hcopy : copyFront s.lineBuf c = .ok (bs ++ s.lineBuf.drop bs.length) := by
    rw [copyFront, if_pos, hc.items, hc.len]
    rw [hs.size, hc.size, hc.len]
    exact ⟨hle, hle⟩
  have hslice : arraySlice c.buf 0 (min bs.length count) = .ok (bs.take (min bs.length count)) := by
    have hitems : ∀ n, n ≤ bs.length → bs.take n = c.buf.take n := by
      intro n hn
      rw [← hc.items, Cursor.items, List.take_take, hc.len, Nat.min_eq_left hn]
    rw [arraySlice, if_pos (by rw [hc.size]; omega), List.drop_zero,
      hitems _ (Nat.min_le_left _ _)]
  rw [Reader.readCanonical, if_neg hrest, hloop]
  simp only [bind, Except.bind, hcopy, hc.len, hslice]
  rfl

/-- What one read does, when the caller asks for something. -/
inductive ReadEnds (iflag : BitVec 32) (answers : ℕ → Option UInt8) (fuel : ℕ) (s : Reader)
    (bufPtr : Word) : Option (Word × Reader) → Prop
  | waits (hnone : s.pending = [])
      (h : ∃ line, typed iflag answers s.answered fuel ⟨[], []⟩ = ⟨[], line⟩) :
      ReadEnds iflag answers fuel s bufPtr none
  | returns (ret : Word) (s' : Reader) (k : ℕ) (hok : s'.Ok)
      (hanswered : s'.answered = s.answered + k) (hsome : returned ret s'.mem bufPtr ≠ [])
      (h : typed iflag answers s.answered k ⟨s.pending.map .item, []⟩ =
        ⟨returned ret s'.mem bufPtr ++ s'.pending.map .item, []⟩) :
      ReadEnds iflag answers fuel s bufPtr (some (ret, s'))

theorem readEnds_rest (hs : s.Ok) (hcount : 0 < count) (hrest : s.linePos < s.lineLen) :
    ∃ r, s.readCanonical iflag answers fuel bufPtr count = .ok r ∧
      ReadEnds iflag answers fuel s bufPtr r := by
  refine ⟨_, readCanonical_rest hs hrest, ?_⟩
  have hsize := hs.size
  have hlen := hs.len_le
  generalize hn : min (s.lineLen - s.linePos) count = n
  have hbs : ((s.lineBuf.drop s.linePos).take n).length = n := by
    rw [List.length_take, List.length_drop]
    omega
  obtain ⟨hret, hne⟩ := @returned_copyOut bufPtr s.mem _ n hbs (by omega) (by omega)
  refine .returns _ _ 0 ⟨hsize, ?_, hlen⟩ rfl ?_ ?_
  · show s.linePos + n ≤ s.lineLen
    omega
  · rwa [hret]
  · -- what was pending is what is returned and what is pending now
    have hsplit : s.pending = (s.lineBuf.drop s.linePos).take n ++
        (s.lineBuf.drop (s.linePos + n)).take (s.lineLen - (s.linePos + n)) := by
      rw [Reader.pending, ← List.drop_drop,
        show s.lineLen - s.linePos = n + (s.lineLen - (s.linePos + n)) by omega, List.take_add]
    rw [typed_zero, hret, hsplit, List.map_append]
    rfl

theorem readEnds_fresh (hs : s.Ok) (hcount : 0 < count) (hrest : ¬ s.linePos < s.lineLen) :
    ∃ r, s.readCanonical iflag answers fuel bufPtr count = .ok r ∧
      ReadEnds iflag answers fuel s bufPtr r := by
  have hnone : s.pending = [] := by
    rw [Reader.pending, show s.lineLen - s.linePos = 0 by omega, List.take_zero]
  obtain ⟨r, hloop, hends⟩ := @lineLoop_spec iflag answers s.answered fuel []
    (Cursor.blank consoleBuf 0) (Cursor.shows_blank consoleBuf 0) (Nat.zero_le _)
  cases hends with
  | waits h =>
    refine ⟨none, ?_, .waits hnone h⟩
    rw [Reader.readCanonical, if_neg hrest, hloop]
    rfl
  | eof k h =>
    refine ⟨some (0, { s with answered := s.answered + k }), ?_,
      .returns _ _ k ⟨hs.size, hs.pos_le, hs.len_le⟩ rfl (by simp [returned]) ?_⟩
    · rw [Reader.readCanonical, if_neg hrest, hloop]
      rfl
    · have hsame : Reader.pending { s with answered := s.answered + k } = [] := hnone
      rw [hnone, hsame]
      exact h
  | line k c bs hc hbs h =>
    refine ⟨_, readCanonical_line hs hrest hloop hc, ?_⟩
    have hlen := hc.le
    have hpos : 0 < bs.length := List.length_pos_of_ne_nil hbs
    generalize hn : min bs.length count = n
    have htake : (bs.take n).length = n := by
      rw [List.length_take]
      omega
    obtain ⟨hret, hne⟩ := @returned_copyOut bufPtr s.mem (bs.take n) n htake (by omega) (by omega)
    refine .returns _ _ k ⟨?_, ?_, hlen⟩ rfl ?_ ?_
    · show (bs ++ s.lineBuf.drop bs.length).length = consoleBuf
      rw [List.length_append, List.length_drop, hs.size]
      omega
    · show n ≤ bs.length
      omega
    · rwa [hret]
    · have hpending : ((bs ++ s.lineBuf.drop bs.length).drop n).take (bs.length - n) =
          bs.drop n := by
        rw [List.drop_append_of_le_length (by omega), List.take_left' (by rw [List.length_drop])]
      rw [hnone, hret, Reader.pending, hpending, ← List.map_append, List.take_append_drop]
      exact h

/-- **One read.**  A read for at least one byte delivers at least one, or the end of the file, and
what it leaves pending is what the line discipline has beyond that. -/
theorem sysRead_spec (hs : s.Ok) (hcount : 0 < count) :
    ∃ r, s.sysRead iflag answers fuel bufPtr count = .ok r ∧
      ReadEnds iflag answers fuel s bufPtr r := by
  rw [Reader.sysRead, if_neg (by omega)]
  by_cases hrest : s.linePos < s.lineLen
  · exact readEnds_rest hs hcount hrest
  · exact readEnds_fresh hs hcount hrest

end Read

/-! ## The read of `Linux.Files` -/

section Files

variable {iflag : BitVec 32} {answers : ℕ → Option UInt8} {fuel count i : ℕ} {s : Reader}
  {bufPtr : Word} {c : Cursor UInt8} {line : List UInt8} {r : Option (LineEnd × ℕ)}

/-- The answers of `console_read`, as `World` has them. -/
def answersFrom (answers : ℕ → Option UInt8) (i k : ℕ) : List (Option (List UInt8)) :=
  (List.range' i k).map fun j => some (answers j).toList

/-- How `readLine` says it. -/
def LineEnd.lineRead : LineEnd → LineRead
  | .eof => .eof
  | .line line => .line line.items

theorem readLine_eq (hc : c.Shows consoleBuf line)
    (h : lineLoop iflag answers fuel i c = .ok r) :
    readLine (iflag &&& icrnl != 0) line (answersFrom answers i fuel) =
      r.map fun e => e.1.lineRead := by
  induction fuel generalizing i c line with
  | zero =>
    cases h
    rfl
  | succ fuel ih =>
    rw [answersFrom, List.range'_succ, List.map_cons, ← answersFrom]
    rw [lineLoop] at h
    cases hb : answers i with
    | none =>
      rw [hb] at h
      exact ih hc h
    | some b₀ =>
    rw [hb] at h
    have hmap : (if b₀ = 0x0D ∧ (iflag &&& icrnl != 0) = true then (0x0A : UInt8) else b₀) =
        if b₀ = 0x0D ∧ iflag &&& icrnl ≠ 0 then 0x0A else b₀ := by
      simp only [bne_iff_ne]
    rw [show (some b₀).toList = [b₀] from rfl, readLine]
    dsimp only at h ⊢
    rw [hmap]
    generalize (if b₀ = 0x0D ∧ iflag &&& icrnl ≠ 0 then 0x0A else b₀) = b at h ⊢
    by_cases herase : b = 0x7F ∨ b = 0x08
    · rw [if_pos herase] at h ⊢
      exact ih hc.pop h
    rw [if_neg herase] at h ⊢
    by_cases hclose : b = 0x04
    · rw [if_pos hclose] at h ⊢
      cases h
      have hiff : c.len = 0 ↔ line = [] := by rw [hc.len, List.length_eq_zero_iff]
      by_cases hnil : line = []
      · rw [if_pos hnil, if_pos (hiff.mpr hnil)]
        rfl
      · rw [if_neg hnil, if_neg fun hlen => hnil (hiff.mp hlen), ← hc.items]
        rfl
    rw [if_neg hclose] at h ⊢
    by_cases henter : b = 0x0A
    · rw [if_pos henter] at h ⊢
      obtain ⟨c', hpush, h⟩ := Run.bind_eq_ok.mp h
      cases h
      by_cases hroom : line.length < consoleBuf
      · obtain ⟨c₁, hpush₁, hc₁⟩ := hc.push hroom Panic.outOfRange b
        rw [hpush] at hpush₁
        cases hpush₁
        rw [← hc₁.items]
        rfl
      · rw [hc.push_full (Nat.le_of_not_lt hroom)] at hpush
        cases hpush
    rw [if_neg henter] at h ⊢
    rw [hc.size, hc.len] at h
    by_cases hcap : line.length < consoleBuf - 1
    · rw [if_pos hcap] at h ⊢
      obtain ⟨c', hpush, h⟩ := Run.bind_eq_ok.mp h
      obtain ⟨c₁, hpush₁, hc₁⟩ := hc.push (show line.length < consoleBuf by omega) Panic.outOfRange b
      rw [hpush] at hpush₁
      cases hpush₁
      exact ih hc₁ h
    · rw [if_neg hcap] at h ⊢
      exact ih hc h

/-- The task that has this line buffer. -/
def Reader.holdBy (s : Reader) (task : TaskStruct) : TaskStruct :=
  { task with line := s.lineBuf.take s.lineLen, linePos := s.linePos }

/-- **The same read.**  On a console in canonical mode `sys_read` of `Linux.Files` does what it does
here: it waits where this read waits, and otherwise returns the same and leaves the same line, the
same position and the same memory. -/
theorem sysRead_canonical {task : TaskStruct} {fd : ℕ} {w : World} (hs : s.Ok)
    (hfd : task.fdTable.get fd = some .console) (hmode : task.lflag &&& icanon ≠ 0)
    (hw : w.consoleRead = answersFrom answers s.answered fuel) :
    ∃ r, s.sysRead task.iflag answers fuel bufPtr count = .ok r ∧
      sysRead (s.holdBy task) s.mem fd bufPtr count w = .ok (match r with
        | none => ⟨none, s.holdBy task, s.mem⟩
        | some (ret, s') => ⟨some ret, s'.holdBy task, s'.mem⟩) := by
  have hfd' : (s.holdBy task).fdTable.get fd = some .console := hfd
  have hmode' : (s.holdBy task).lflag &&& icanon ≠ 0 := hmode
  rw [Linux.sysRead, hfd']
  dsimp only
  by_cases hzero : count = 0
  · exact ⟨some (0, s), if_pos hzero, if_pos hzero⟩
  rw [if_neg hzero, if_pos hmode', Reader.sysRead, if_neg hzero]
  have hlen : (s.holdBy task).line.length = s.lineLen := by
    show (s.lineBuf.take s.lineLen).length = s.lineLen
    rw [List.length_take, hs.size]
    exact Nat.min_eq_left hs.len_le
  have hpos : (s.holdBy task).linePos = s.linePos := rfl
  rw [consoleReadCanonical, hlen, hpos]
  by_cases hrest : s.linePos < s.lineLen
  · refine ⟨_, readCanonical_rest hs hrest, ?_⟩
    have hbytes : (((s.holdBy task).line.drop s.linePos).take (min (s.lineLen - s.linePos) count)) =
        (s.lineBuf.drop s.linePos).take (min (s.lineLen - s.linePos) count) := by
      show (((s.lineBuf.take s.lineLen).drop s.linePos).take _) = _
      rw [List.drop_take, List.take_take, Nat.min_eq_left (Nat.min_le_left _ _)]
    rw [if_pos hrest]
    dsimp only
    rw [hbytes]
    rfl
  · have hblank := Cursor.shows_blank consoleBuf (0 : UInt8)
    obtain ⟨r, hloop, hends⟩ := @lineLoop_spec task.iflag answers s.answered fuel []
      (Cursor.blank consoleBuf 0) hblank (Nat.zero_le _)
    rw [if_neg hrest, show (s.holdBy task).iflag = task.iflag from rfl, hw,
      readLine_eq hblank hloop]
    cases hends with
    | waits =>
      refine ⟨none, ?_, rfl⟩
      rw [Reader.readCanonical, if_neg hrest, hloop]
      rfl
    | eof k =>
      refine ⟨some (0, { s with answered := s.answered + k }), ?_, rfl⟩
      rw [Reader.readCanonical, if_neg hrest, hloop]
      rfl
    | line k c bs hc =>
      refine ⟨_, readCanonical_line hs hrest hloop hc, ?_⟩
      dsimp only [Option.map_some, LineEnd.lineRead]
      rw [hc.items]
      -- the line is the front of the buffer
      have hfront : (bs ++ s.lineBuf.drop bs.length).take bs.length = bs := List.take_left' rfl
      simp only [Reader.holdBy, hfront]

end Files

/-! ## Runs of reads -/

/-- What reads by these calls deliver in the end: `x` is the delivery with the number `i`. -/
def Delivers (iflag : BitVec 32) (answers : ℕ → Option UInt8) (s : Reader) (calls : ℕ → ReadCall)
    (i : ℕ) (x : Delivery UInt8) : Prop :=
  ∃ fuel n ds, reads iflag answers fuel ((List.range n).map calls) s = .ok ds ∧ ds[i]? = some x

/-- What the line discipline delivers in the end, behind what is pending. -/
def Disciplined (iflag : BitVec 32) (answers : ℕ → Option UInt8) (s : Reader) (i : ℕ)
    (x : Delivery UInt8) : Prop :=
  ∃ k, (s.pending.map .item ++ discipline iflag (arrived answers s.answered k))[i]? = some x

section Runs

variable {iflag : BitVec 32} {answers : ℕ → Option UInt8} {fuel i : ℕ} {s₀ s : Reader}
  {ds xs ys : List (Delivery UInt8)} {x y : Delivery UInt8} {calls calls' : ℕ → ReadCall}

theorem getElem?_of_prefix (h : xs <+: ys) (hx : xs[i]? = some x) : ys[i]? = some x := by
  obtain ⟨zs, rfl⟩ := h
  obtain ⟨hi, -⟩ := List.getElem?_eq_some_iff.mp hx
  rw [List.getElem?_append_left hi, hx]

/-- The editor that starts with what is pending. -/
def Reader.editor (s : Reader) : Editor UInt8 := ⟨s.pending.map .item, []⟩

/-- What was delivered since `s₀`, with what is pending, is what the line discipline delivers of the
answers since then. -/
def Tracks (iflag : BitVec 32) (answers : ℕ → Option UInt8) (s₀ s : Reader)
    (ds : List (Delivery UInt8)) : Prop :=
  s.Ok ∧ ∃ k, s.answered = s₀.answered + k ∧
    typed iflag answers s₀.answered k s₀.editor = ⟨ds ++ s.pending.map .item, []⟩

theorem done_editor (k : ℕ) : (typed iflag answers s₀.answered k s₀.editor).done =
    s₀.pending.map .item ++ discipline iflag (arrived answers s₀.answered k) := by
  have h := @typed_done iflag answers s₀.answered (s₀.pending.map .item) k ⟨[], []⟩
  rw [List.append_nil] at h
  rw [Reader.editor, h]
  rfl

/-- **A run of reads.**  They deliver something each until one of them waits, and by then they have
delivered all that the answers so far are good for. -/
theorem reads_spec {cs : List ReadCall} (h : Tracks iflag answers s₀ s ds)
    (hcs : ∀ c ∈ cs, 0 < c.count) :
    ∃ out k, reads iflag answers fuel cs s = .ok out ∧
      ds ++ out <+: (typed iflag answers s₀.answered k s₀.editor).done ∧
      (cs.length ≤ out.length ∨
        (typed iflag answers s₀.answered fuel s₀.editor).done <+: ds ++ out) := by
  obtain ⟨hok, k, hk, htyped⟩ := h
  induction cs generalizing s ds k with
  | nil =>
    refine ⟨[], k, rfl, ?_, Or.inl le_rfl⟩
    rw [htyped, List.append_nil]
    exact List.prefix_append _ _
  | cons c cs ih =>
    obtain ⟨r, hread, hends⟩ := @sysRead_spec iflag answers fuel c.count s c.bufPtr hok
      (hcs c (List.mem_cons_self ..))
    have hadd := fun j => @typed_add iflag answers s₀.answered k s₀.editor j
    simp only [htyped, ← hk] at hadd
    cases hends with
    | waits hnone h =>
      obtain ⟨line, hline⟩ := h
      have hall : (typed iflag answers s₀.answered (k + fuel) s₀.editor).done = ds := by
        have hdone := @typed_done iflag answers s.answered ds fuel ⟨[], []⟩
        rw [hadd, hnone]
        rw [List.append_nil, hline] at hdone
        rw [List.map_nil, List.append_nil, hdone, List.append_nil]
      refine ⟨[], k + fuel, ?_, ?_, Or.inr ?_⟩
      · rw [reads, hread]
        rfl
      · rw [hall, List.append_nil]
      · rw [List.append_nil]
        conv => rhs; rw [← hall]
        exact typed_isPrefix_typed (Nat.le_add_left _ _)
    | returns ret s' j hok' hj hsome h =>
      have htyped' : typed iflag answers s₀.answered (k + j) s₀.editor =
          ⟨ds ++ returned ret s'.mem c.bufPtr ++ s'.pending.map .item, []⟩ := by
        have hdone := @typed_done iflag answers s.answered ds j ⟨s.pending.map .item, []⟩
        rw [hadd, hdone, h, List.append_assoc]
      obtain ⟨out, t, hout, hgrown, hend⟩ := ih
        (fun c hc => hcs c (List.mem_cons_of_mem _ hc)) hok' (k + j) (by omega) htyped'
      refine ⟨returned ret s'.mem c.bufPtr ++ out, t, ?_, ?_, ?_⟩
      · rw [reads, hread]
        simp only [bind, Except.bind, hout]
        rfl
      · rwa [← List.append_assoc]
      · rw [← List.append_assoc]
        refine hend.imp_left fun hlen => ?_
        have hone : 0 < (returned ret s'.mem c.bufPtr).length := List.length_pos_of_ne_nil hsome
        rw [List.length_cons, List.length_append]
        omega

/-- **Canonical reads do not depend on the sizes of the reads.**  Whatever arrives, byte by byte and
with pauses in between, and however many bytes the calls ask for: no call goes outside an array, and
what they deliver, one after the other, is what the line discipline delivers; other calls deliver
the same. -/
theorem canonical_reads (hs : s.Ok) (hcalls : ∀ n, 0 < (calls n).count)
    (hcalls' : ∀ n, 0 < (calls' n).count) :
    (∀ fuel n, ∃ ds, reads iflag answers fuel ((List.range n).map calls) s = .ok ds) ∧
    (∀ i x, Delivers iflag answers s calls i x ↔ Disciplined iflag answers s i x) ∧
    ∀ i x, Delivers iflag answers s calls i x ↔ Delivers iflag answers s calls' i x := by
  have hstart : Tracks iflag answers s s [] := ⟨hs, 0, rfl, rfl⟩
  have hmem : ∀ {calls : ℕ → ReadCall}, (∀ n, 0 < (calls n).count) → ∀ n,
      ∀ c ∈ (List.range n).map calls, 0 < c.count := by
    intro calls hcalls n c hc
    obtain ⟨j, -, rfl⟩ := List.mem_map.mp hc
    exact hcalls j
  have hiff : ∀ {calls : ℕ → ReadCall}, (∀ n, 0 < (calls n).count) → ∀ i x,
      Delivers iflag answers s calls i x ↔ Disciplined iflag answers s i x := by
    intro calls hcalls i x
    constructor
    · rintro ⟨fuel, n, ds, hds, hx⟩
      obtain ⟨out, k, hout, hgrown, -⟩ := @reads_spec iflag answers fuel s s [] _ hstart
        (hmem hcalls n)
      rw [hds] at hout
      cases hout
      rw [List.nil_append, done_editor] at hgrown
      exact ⟨k, getElem?_of_prefix hgrown hx⟩
    · rintro ⟨k, hx⟩
      rw [← done_editor] at hx
      -- with `i + 1` calls there are enough deliveries, or one call waits for all the answers
      obtain ⟨out, t, hout, hgrown, hend⟩ := @reads_spec iflag answers k s s [] _ hstart
        (hmem hcalls (i + 1))
      rw [List.nil_append] at hgrown hend
      refine ⟨k, i + 1, out, hout, ?_⟩
      rcases hend with hlen | hall
      · rw [List.length_map, List.length_range] at hlen
        have hy : out[i]? = some out[i] := List.getElem?_eq_getElem (by omega)
        have hx' := getElem?_of_prefix (typed_isPrefix_typed (Nat.le_max_left k t)) hx
        have hy' := getElem?_of_prefix (hgrown.trans (typed_isPrefix_typed (Nat.le_max_right k t))) hy
        rw [hy, ← hy', hx']
      · exact getElem?_of_prefix hall hx
  refine ⟨fun fuel n => ?_, hiff hcalls, fun i x => (hiff hcalls i x).trans (hiff hcalls' i x).symm⟩
  obtain ⟨out, -, hout, -⟩ := @reads_spec iflag answers fuel s s [] _ hstart (hmem hcalls n)
  exact ⟨out, hout⟩

end Runs

/-- A task that has read nothing yet. -/
def Reader.start : Reader := ⟨List.replicate consoleBuf 0, 0, 0, fun _ => 0, 0⟩

/-- The letter `a` and a carriage return, over and over: reads of one byte and of a whole line. -/
theorem canonical_reads_single : Reader.start.Ok ∧ ∀ i x,
    Delivers 0x0500 (fun i => some (if i % 2 = 0 then 0x61 else 0x0D)) .start (fun _ => ⟨0, 1⟩) i x ↔
      Delivers 0x0500 (fun i => some (if i % 2 = 0 then 0x61 else 0x0D)) .start
        (fun _ => ⟨0, 4096⟩) i x := by
  have hs : Reader.start.Ok := ⟨List.length_replicate, le_rfl, Nat.zero_le _⟩
  exact ⟨hs, (canonical_reads hs (fun _ => by decide) (fun _ => by decide)).2.2⟩

/-- An erased letter, a line, and `^D` on an empty one. -/
example : discipline 0x0500 [0x61, 0x7F, 0x62, 0x0D, 0x04] = [.item 0x62, .item 0x0A, .eof] := by
  decide

end QuackOS.Linux
