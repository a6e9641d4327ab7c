import QuackOS.Lib.Cursor
import QuackOS.Linux.Files

/-!
# Raw reads from the console

`console_read_raw` of `liblinux/src/fs.rs` with the arrays it works in.  The bytes of one answer of
`console_read` go to the caller and, when `ECHO` is set, through an array of 4096 bytes to the
screen; an erase character takes three bytes there.

* `fillEcho_ok`, `fillEcho_full` — the echo goes into its array exactly when it fits;
* `consoleReadRaw_eq` — the read of `Linux.Task` is this one without the screen;
* `readsRaw_iff` — a raw read does what it should exactly when `ECHO` is clear or the answer and
  two bytes more for each erase character in it are at most 4096 bytes.
-/

namespace QuackOS.Linux

open Bytes

/-- The characters that erase, `DEL` and `BS`. -/
def isErase (b : UInt8) : Bool := b == 0x7F || b == 0x08

/-- The loop that fills the array `eb` of `console_read_raw`. -/
def fillEcho (bs : List UInt8) : Except Panic (Cursor UInt8) :=
  bs.foldlM (fun eb b =>
    if b = 0x7F ∨ b = 0x08 then do
      let eb ← eb.push .outOfRange 0x08
      let eb ← eb.push .outOfRange 0x20
      eb.push .outOfRange 0x08
    else eb.push .outOfRange b) (Cursor.blank consoleBuf 0)

/-- The bytes of an answer with carriage returns mapped, if `ICRNL` is set. -/
def mapReturns (task : TaskStruct) (bs : List UInt8) : List UInt8 :=
  if task.iflag &&& icrnl ≠ 0 then bs.map fun b => if b = 0x0D then 0x0A else b else bs

/-- `console_read_raw` with the calls of `console_write` it makes. -/
def consoleReadRawEcho (task : TaskStruct) (mem : Mem) (bufPtr : Word) (w : World) :
    Except Panic (Outcome × List (List UInt8)) := do
  match w.consoleRead.find? fun r => r != some [] with
  | none => return (⟨none, task, mem⟩, [])
  | some none => return (⟨some (Errno.word .EIo), task, mem⟩, [])
  | some (some bs) =>
    -- `&tmp[..n]`
    if consoleBuf < bs.length then .error .outOfRange
    else
      let bs := mapReturns task bs
      let out : Outcome := ⟨some (BitVec.ofNat 64 bs.length), task, copyOut mem bufPtr bs⟩
      if task.lflag &&& echo ≠ 0 then
        let eb ← fillEcho bs
        return (out, [eb.items])
      else return (out, [])

/-- A raw read of an answer does what it should: it returns the number of bytes, puts them to the
caller's buffer, and shows each of them or the erase sequence on the screen. -/
def ReadsRaw (task : TaskStruct) (mem : Mem) (bufPtr : Word) (w : World) (bs : List UInt8) : Prop :=
  consoleReadRawEcho task mem bufPtr w =
    .ok (⟨some (BitVec.ofNat 64 bs.length), task, copyOut mem bufPtr (mapReturns task bs)⟩,
      if task.lflag &&& echo ≠ 0 then [echoBytes (mapReturns task bs)] else [])

/-! ## The echo -/

variable {bs : List UInt8}

/-- An erase character is three characters in a row. -/
theorem fillEcho_eq (bs : List UInt8) : fillEcho bs =
    (echoBytes bs).foldlM (fun eb b => eb.push Panic.outOfRange b) (Cursor.blank consoleBuf 0) := by
  unfold fillEcho
  generalize Cursor.blank consoleBuf (0 : UInt8) = eb
  induction bs generalizing eb with
  | nil => rfl
  | cons b bs ih =>
    rw [List.foldlM_cons, echoBytes, List.flatMap_cons, List.foldlM_append, ← echoBytes]
    split
    · simp only [List.foldlM_cons, List.foldlM_nil, bind_pure, bind_assoc]
      simp only [← ih]
    · simp only [List.foldlM_cons, List.foldlM_nil, bind_pure]
      simp only [← ih]

theorem fillEcho_ok (h : (echoBytes bs).length ≤ consoleBuf) :
    ∃ eb, fillEcho bs = .ok eb ∧ eb.items = echoBytes bs := by
  have hroom : ([] : List UInt8).length + (echoBytes bs).length ≤ consoleBuf := by simpa using h
  obtain ⟨eb, heb, hshows⟩ :=
    (Cursor.shows_blank consoleBuf (0 : UInt8)).pushAll hroom Panic.outOfRange
  exact ⟨eb, (fillEcho_eq bs).trans heb, hshows.items⟩

theorem fillEcho_full (h : consoleBuf < (echoBytes bs).length) :
    fillEcho bs = .error .outOfRange := by
  rw [fillEcho_eq]
  exact (Cursor.shows_blank consoleBuf (0 : UInt8)).pushAll_full (by simpa using h) Panic.outOfRange

theorem length_echoBytes (bs : List UInt8) :
    (echoBytes bs).length = bs.length + 2 * bs.countP isErase := by
  induction bs with
  | nil => rfl
  | cons b bs ih =>
    have hcons : echoBytes (b :: bs) =
        (if b = 0x7F ∨ b = 0x08 then [0x08, 0x20, 0x08] else [b]) ++ echoBytes bs := rfl
    rw [hcons, List.length_append, ih, List.length_cons, List.countP_cons]
    by_cases hb : b = 0x7F ∨ b = 0x08
    · have herase : isErase b = true := by simpa [isErase] using hb
      rw [if_pos hb, if_pos herase]
      simp only [List.length_cons, List.length_nil]
      omega
    · have herase : isErase b = false := by simpa [isErase] using hb
      rw [if_neg hb, herase]
      simp only [List.length_cons, List.length_nil, Bool.false_eq_true, if_false]
      omega

/-- Mapping a carriage return makes no erase character and takes none away. -/
theorem countP_mapReturns (task : TaskStruct) (bs : List UInt8) :
    (mapReturns task bs).countP isErase = bs.countP isErase := by
  unfold mapReturns
  split
  · rw [List.countP_map]
    refine List.countP_congr fun b _ => ?_
    by_cases hb : b = 0x0D
    · subst hb
      decide
    · simp [hb]
  · rfl

@[simp] theorem length_mapReturns (task : TaskStruct) (bs : List UInt8) :
    (mapReturns task bs).length = bs.length := by
  unfold mapReturns
  split
  · exact List.length_map ..
  · rfl

/-! ## The read -/

variable {task : TaskStruct} {mem : Mem} {bufPtr : Word} {w : World} {count : ℕ}

/-- With answers no longer than the array, this read is the one without the screen. -/
theorem consoleReadRaw_eq
    (hfit : ∀ bs, w.consoleRead.find? (fun r => r != some []) = some (some bs) →
      bs.length ≤ consoleBuf) :
    consoleReadRaw task mem bufPtr w =
      (consoleReadRawEcho task mem bufPtr w).map Prod.fst := by
  unfold consoleReadRaw consoleReadRawEcho
  cases hread : w.consoleRead.find? fun r => r != some [] with
  | none => rfl
  | some answer =>
    cases answer with
    | none => rfl
    | some bs =>
      have hin : ¬ consoleBuf < bs.length := Nat.not_lt.mpr (hfit bs hread)
      dsimp only
      rw [if_neg hin]
      change (if task.lflag &&& echo ≠ 0 ∧ consoleBuf < (echoBytes (mapReturns task bs)).length then
        Except.error Panic.outOfRange else .ok _) = _
      by_cases hecho : task.lflag &&& echo ≠ 0
      · rw [if_pos hecho]
        by_cases hlong : consoleBuf < (echoBytes (mapReturns task bs)).length
        · rw [if_pos ⟨hecho, hlong⟩, fillEcho_full hlong]
          rfl
        · obtain ⟨eb, heb, -⟩ := fillEcho_ok (Nat.le_of_not_lt hlong)
          rw [if_neg (fun h => hlong h.2), heb]
          rfl
      · rw [if_neg hecho, if_neg (fun h => hecho h.1)]
        rfl

/-- **When a raw read does what it should.**  Whatever the flags and the count, and whatever bytes
the first answer has, the read is right exactly when nothing is echoed or the echo, three bytes for
each erase character and one for any other, fits 4096 bytes.  A longer echo is an index out of
range. -/
theorem readsRaw_iff
    (hread : w.consoleRead.find? (fun r => r != some []) = some (some bs))
    (hlen : bs.length ≤ min count consoleBuf) :
    ReadsRaw task mem bufPtr w bs ↔
      task.lflag &&& echo = 0 ∨ bs.length + 2 * bs.countP isErase ≤ consoleBuf := by
  have htotal : (echoBytes (mapReturns task bs)).length = bs.length + 2 * bs.countP isErase := by
    rw [length_echoBytes, countP_mapReturns, length_mapReturns]
  unfold ReadsRaw consoleReadRawEcho
  rw [hread]
  dsimp only
  rw [if_neg (by omega), length_mapReturns]
  by_cases hecho : task.lflag &&& echo = 0
  · rw [if_neg (not_not.mpr hecho), if_neg (not_not.mpr hecho)]
    exact iff_of_true rfl (.inl hecho)
  · rw [if_pos hecho, if_pos hecho, ← htotal, or_iff_right hecho]
    by_cases hlong : consoleBuf < (echoBytes (mapReturns task bs)).length
    · rw [fillEcho_full hlong]
      exact iff_of_false (fun h => nomatch h) (Nat.not_le.mpr hlong)
    · obtain ⟨eb, heb, hitems⟩ := fillEcho_ok (Nat.le_of_not_lt hlong)
      rw [heb, ← hitems]
      exact iff_of_true rfl (hitems ▸ Nat.le_of_not_lt hlong)

/-- A console that answers with erase characters only, under the flags of a new task with
`ICANON` cleared. -/
def rawTask : TaskStruct := { TaskStruct.new 0 with lflag := 0x8A39 }

def eraseWorld (n : ℕ) : World :=
  { consoleWrite := 0
    consoleRead := [some [], some (List.replicate n 0x7F)]
    fsRead := .ok []
    fsWrite := .ok 0 }

theorem find_eraseWorld {n : ℕ} (hn : n ≠ 0) :
    (eraseWorld n).consoleRead.find? (fun r => r != some []) =
      some (some (List.replicate n 0x7F)) := by
  have hne : (some (List.replicate n (0x7F : UInt8)) != some []) = true := by simpa using hn
  simp only [eraseWorld, List.find?_cons, hne]
  rfl

/-- Three erase characters are echoed. -/
theorem readsRaw_three : ReadsRaw rawTask (fun _ => 0) 0 (eraseWorld 3) (List.replicate 3 0x7F) :=
  (readsRaw_iff (find_eraseWorld (by decide)) (show _ ≤ min 3 consoleBuf by decide)).mpr
    (.inr (by decide))

/-- **1366 erase characters in one answer are too many**: their echo takes 4098 bytes. -/
theorem eraseStorm_panics :
    rawTask.lflag &&& icanon = 0 ∧ (List.replicate 1366 (0x7F : UInt8)).length ≤ 4096 ∧
    consoleReadRawEcho rawTask (fun _ => 0) 0 (eraseWorld 1366) = .error .outOfRange ∧
    ¬ ReadsRaw rawTask (fun _ => 0) 0 (eraseWorld 1366) (List.replicate 1366 0x7F) := by
  have hpanic : consoleReadRawEcho rawTask (fun _ => 0) 0 (eraseWorld 1366) =
      .error .outOfRange := by
    have hmap : mapReturns rawTask (List.replicate 1366 0x7F) = List.replicate 1366 0x7F := by
      rw [mapReturns, if_pos (by decide), List.map_replicate]
      rfl
    have hlen : (echoBytes (List.replicate 1366 0x7F)).length = 4098 := by
      rw [length_echoBytes, List.length_replicate, List.countP_replicate]
      rfl
    unfold consoleReadRawEcho
    rw [find_eraseWorld (by decide)]
    dsimp only
    rw [if_neg (by rw [List.length_replicate]; decide), if_pos (by decide), hmap,
      fillEcho_full (by rw [hlen]; decide)]
    rfl
  refine ⟨by decide, by rw [List.length_replicate]; decide, hpanic, fun h => ?_⟩
  rw [ReadsRaw, hpanic] at h
  cases h

end QuackOS.Linux
