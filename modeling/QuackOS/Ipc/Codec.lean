import QuackOS.Ipc.Message

/-!
# Short-message codecs

Bytes are packed into the words of a `ShortPayload` in two places, `pack_short` of the native
syscalls and `kernel_send` of the file server, and taken out in two, `unpack_short` and
`kernel_recv`.  All four are loops over the words with a partial one at the end.

* `packBytes`, `extractBytes` — the two loops, as the source has them;
* `packBytes_eq`, `extractBytes_eq` — what they compute;
* `codecs_agree` — any reader gives back what any writer packed.
-/

namespace QuackOS.Ipc

open QuackOS.Bytes

/-! ## The loops -/

/-- `let mut buf = [0u8; 256]; buf[..n].copy_from_slice(..)`. -/
def shortBuf (data : List (BitVec 8)) (n : ℕ) : ℕ → BitVec 8 :=
  fun j => if j < n then data.getD j 0 else 0

/-- The inner loop of the writers: the word of the bytes `off, …, stop - 1`. -/
def packWord (buf : ℕ → BitVec 8) (off stop : ℕ) : BitVec 64 :=
  (List.range' off (stop - off)).foldl
    (fun w j => w ||| (buf j).setWidth 64 <<< ((j - off) * 8)) 0

/-- The outer loop of the writers, over as many words as `n` bytes take. -/
def packBytes (data : List (BitVec 8)) : ShortPayload :=
  let n := min data.length 256
  let buf := shortBuf data n
  { words := (List.range ((n + 7) / 8)).foldl (fun words i =>
      Function.update words i (packWord buf (i * 8) (min (i * 8 + 8) n))) fun _ => 0
    len := n }

/-- `buf[off..off + m].copy_from_slice(&bytes[..m])`, for the bytes of a word. -/
def copyWord (buf : ℕ → BitVec 8) (w : BitVec 64) (off m : ℕ) : ℕ → BitVec 8 :=
  fun j => if off ≤ j ∧ j < off + m then byte w (j - off) else buf j

/-- The loop of the readers over some words, up to byte `n`. -/
def extractBytes (words : ℕ → BitVec 64) (n rounds : ℕ) : ℕ → BitVec 8 :=
  (List.range rounds).foldl (fun buf i =>
    if i * 8 < n then copyWord buf (words i) (i * 8) (min (n - i * 8) 8) else buf) fun _ => 0

/-! ## The four codecs -/

/-- The payload `kernel_send` makes of its data. -/
def kernelSendPayload (data : List (BitVec 8)) : ShortPayload := packBytes data

/-- `unpack_short`: the count it returns and what it leaves of the user buffer. -/
def unpackShortInto (p : ShortPayload) (dst : List (BitVec 8)) : ℕ × List (BitVec 8) :=
  let n := min (min p.len dst.length) 256
  (n, (List.range n).map (extractBytes p.words n 32) ++ dst.drop n)

/-- What `kernel_recv` returns of the message of a sender it has matched. -/
def kernelRecvMatched (msg : Option Message) : List (BitVec 8) :=
  match msg.getD (.newShort 0 .empty) with
  | .short _ payload =>
    let n := min payload.len 256
    (List.range n).map (extractBytes payload.words n ((n + 7) / 8))
  | _ => []

/-! ## What the loops compute -/

/-- A loop that writes one word after the other. -/
theorem foldl_update_range {β : Type*} (f : ℕ → β) (z : ℕ → β) (k i : ℕ) :
    (List.range k).foldl (fun g i => Function.update g i (f i)) z i = if i < k then f i else z i := by
  induction k with
  | zero => rfl
  | succ k ih =>
    rw [List.range_succ, List.foldl_append, List.foldl_cons, List.foldl_nil]
    by_cases hi : i = k
    · rw [hi, Function.update_self, if_pos (Nat.lt_succ_self k)]
    · rw [Function.update_of_ne hi, ih]
      exact if_congr (by omega) rfl rfl

/-- Or-ing in the shifted bytes assembles the word. -/
theorem packWord_eq (buf : ℕ → BitVec 8) (off stop : ℕ) :
    packWord buf off stop = ofBytes (fun k => buf (off + k)) (stop - off) := by
  unfold packWord
  induction stop - off with
  | zero => rfl
  | succ n ih =>
    rw [List.range'_concat, List.foldl_append, List.foldl_cons, List.foldl_nil, ih, ofBytes,
      Nat.one_mul, Nat.add_sub_cancel_left, Nat.mul_comm n 8]

/-- **The writers' loop is `pack_short`.** -/
theorem packBytes_eq (data : List (BitVec 8)) : packBytes data = packShort data := by
  unfold packBytes packShort
  dsimp only
  congr 1
  funext i
  rw [foldl_update_range]
  refine if_congr Iff.rfl ?_ rfl
  rw [packWord_eq, Nat.mul_comm i 8]
  refine ofBytes_congr fun k hk => ?_
  rw [shortBuf, if_pos (by omega)]

/-- The readers' loop has put down the first bytes of the words it has been through. -/
theorem extractBytes_eq (words : ℕ → BitVec 64) (n rounds j : ℕ) :
    extractBytes words n rounds j =
      if j < min n (rounds * 8) then byte (words (j / 8)) (j % 8) else 0 := by
  induction rounds with
  | zero =>
    rw [Nat.zero_mul, Nat.min_zero, if_neg (Nat.not_lt_zero j)]
    rfl
  | succ k ih =>
    have hstep : extractBytes words n (k + 1) =
        if k * 8 < n then copyWord (extractBytes words n k) (words k) (k * 8) (min (n - k * 8) 8)
        else extractBytes words n k := by
      rw [extractBytes, List.range_succ, List.foldl_append, List.foldl_cons, List.foldl_nil]
      rfl
    rw [hstep]
    by_cases hk : k * 8 < n
    · rw [if_pos hk, copyWord]
      by_cases hj : k * 8 ≤ j ∧ j < k * 8 + min (n - k * 8) 8
      · have hdiv : j / 8 = k := by omega
        have hmod : j % 8 = j - k * 8 := by omega
        rw [if_pos hj, if_pos (by omega), hdiv, hmod]
      · rw [if_neg hj, ih]
        exact if_congr (by omega) rfl rfl
    · rw [if_neg hk, ih]
      exact if_congr (by omega) rfl rfl

/-- The bytes a reader returns, when it goes through enough words. -/
theorem map_extractBytes (words : ℕ → BitVec 64) {n rounds : ℕ} (hn : n ≤ 256)
    (hrounds : n ≤ rounds * 8) :
    (List.range n).map (extractBytes words n rounds) = payloadBytes words n := by
  rw [payloadBytes_eq words hn]
  refine List.map_congr_left fun j hj => ?_
  rw [List.mem_range] at hj
  rw [extractBytes_eq, if_pos (by omega)]

/-! ## The codecs agree -/

/-- `unpack_short` returns how many bytes it wrote, and leaves the rest of the buffer alone. -/
theorem unpackShortInto_packShort (m dst : List (BitVec 8)) (h : m.length ≤ 256) :
    unpackShortInto (packShort m) dst =
      (min m.length dst.length, m.take dst.length ++ dst.drop (min m.length dst.length)) := by
  have hlen : (packShort m).len = m.length := by simp [packShort, h]
  have hn : min (min m.length dst.length) 256 = min m.length dst.length := by omega
  have htake := unpackShort_packShort m h dst.length
  rw [unpackShort, hlen, hn] at htake
  unfold unpackShortInto
  dsimp only
  rw [hlen, hn, map_extractBytes _ (by omega) (by omega), htake]

/-- **Any reader gives back what any writer packed**: `unpack_short` writes and returns as many
bytes of the message as the buffer takes, and `kernel_recv` all of them. -/
theorem codecs_agree (m dst : List (BitVec 8)) (sender : BitVec 32) (h : m.length ≤ 256) :
    unpackShortInto (packShort m) dst =
        (min m.length dst.length, m.take dst.length ++ dst.drop (min m.length dst.length)) ∧
      kernelRecvMatched (some (.newShort sender (packShort m))) = m ∧
      unpackShortInto (kernelSendPayload m) dst =
        (min m.length dst.length, m.take dst.length ++ dst.drop (min m.length dst.length)) := by
  refine ⟨unpackShortInto_packShort m dst h, ?_, ?_⟩
  · have hlen : (packShort m).len = m.length := by simp [packShort, h]
    have hbytes : kernelRecvMatched (some (.newShort sender (packShort m))) =
        (List.range (min (packShort m).len 256)).map (extractBytes (packShort m).words
          (min (packShort m).len 256) ((min (packShort m).len 256 + 7) / 8)) := rfl
    rw [hbytes, hlen, Nat.min_eq_left h, map_extractBytes _ h (by omega),
      payloadBytes_packShort m h h, map_getD_range (le_refl _), List.take_length]
  · rw [kernelSendPayload, packBytes_eq, unpackShortInto_packShort m dst h]

/-- Nine bytes, with a buffer for eleven. -/
theorem codecs_agree_nine :
    unpackShortInto (packShort [1, 2, 3, 4, 5, 6, 7, 8, 9]) [0, 0, 0, 0, 0, 0, 0, 0, 0, 0, 0] =
        (9, [1, 2, 3, 4, 5, 6, 7, 8, 9, 0, 0]) ∧
      kernelRecvMatched (some (.newShort 1 (packShort [1, 2, 3, 4, 5, 6, 7, 8, 9]))) =
        [1, 2, 3, 4, 5, 6, 7, 8, 9] ∧
      unpackShortInto (kernelSendPayload [1, 2, 3, 4, 5, 6, 7, 8, 9])
          [0, 0, 0, 0, 0, 0, 0, 0, 0, 0, 0] = (9, [1, 2, 3, 4, 5, 6, 7, 8, 9, 0, 0]) :=
  codecs_agree [1, 2, 3, 4, 5, 6, 7, 8, 9] [0, 0, 0, 0, 0, 0, 0, 0, 0, 0, 0] 1 (by decide)

end QuackOS.Ipc
