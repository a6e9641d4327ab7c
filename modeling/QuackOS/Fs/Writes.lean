import QuackOS.Fs.Client

/-!
# Writes in pieces

A write of the two client libraries sends the buffer piece by piece, each piece from where the
server stopped with the one before.  The replies are a stream: one for every request that is sent,
an error or the number of bytes by which the server moved the file's position.

* `writeLoop_ends` — the loop ends on every stream of replies, having sent the requests of
  `Asked`;
* `Accounts` — the caller learns how far the position has moved;
* `writes_account_iff` — `fs_write` of `liblinux` always accounts for the bytes, and `write` of
  `qlibc` exactly when no error comes after bytes that were taken.
-/

namespace QuackOS.Fs

/-- The bytes the server took with a reply. -/
def Reply.count : Reply → ℕ
  | .failed _ => 0
  | .written n => n

/-- The bytes taken with the first replies: how far the position has moved. -/
def accepted (replies : ℕ → Reply) : ℕ → ℕ
  | 0 => 0
  | i + 1 => accepted replies i + (replies i).count

/-- What the next request should send after `i` replies. -/
def nextPiece (buf : List UInt8) (replies : ℕ → Reply) (i : ℕ) : List UInt8 :=
  (buf.drop (accepted replies i)).take maxChunk

/-- The server takes no more than it is sent. -/
def Honest (buf : List UInt8) (replies : ℕ → Reply) : Prop :=
  ∀ i, (replies i).count ≤ (nextPiece buf replies i).length

/-- A request is sent after `i` replies: all of them took bytes, and bytes are left. -/
def Asked (buf : List UInt8) (replies : ℕ → Reply) (i : ℕ) : Prop :=
  (∀ j < i, 0 < (replies j).count) ∧ accepted replies i < buf.length

/-- The write accounts for every byte: it returns, it has sent one piece behind the other, and the
caller learns of the bytes the server took. -/
def Accounts (write : List Reply → Option (List (List UInt8) × Option (Except ℤ ℕ)))
    (fid : BitVec 64) (buf : List UInt8) (replies : ℕ → Reply) : Prop :=
  ∃ reqs result,
    (∀ k, reqs.length ≤ k → write ((List.range k).map replies) = some (reqs, some result)) ∧
    reqs.map decode =
      (List.range reqs.length).map (fun i => some (.write fid (nextPiece buf replies i))) ∧
    accepted replies reqs.length ≤ buf.length ∧
    (0 < accepted replies reqs.length → result = .ok (accepted replies reqs.length)) ∧
    ∀ n, result = .ok n → n = accepted replies reqs.length

variable {buf : List UInt8} {replies : ℕ → Reply} {i j n : ℕ} {fid : BitVec 64}

theorem Honest.accepted_le (h : Honest buf replies) (i : ℕ) : accepted replies i ≤ buf.length := by
  induction i with
  | zero => exact Nat.zero_le _
  | succ i ih =>
    have hnext := h i
    rw [nextPiece, List.length_take, List.length_drop] at hnext
    rw [accepted]
    omega

theorem accepted_pos (hi : 0 < i) (h : ∀ j < i, 0 < (replies j).count) :
    0 < accepted replies i := by
  obtain ⟨j, rfl⟩ : ∃ j, i = j + 1 := ⟨i - 1, by omega⟩
  have hj := h j (Nat.lt_succ_self j)
  rw [accepted]
  omega

/-- What the loop returns when it ends after `m` replies: all that was taken, or what it makes of
the error that came last. -/
def endResult (replies : ℕ → Reply) (onError : ℕ → ℤ → Except ℤ ℕ) : ℕ → Except ℤ ℕ
  | 0 => .ok 0
  | j + 1 =>
    match replies j with
    | .failed e => onError (accepted replies j) e
    | .written _ => .ok (accepted replies (j + 1))

theorem endResult_of_took (onError : ℕ → ℤ → Except ℤ ℕ) (h : ∀ j < i, 0 < (replies j).count) :
    endResult replies onError i = .ok (accepted replies i) := by
  cases i with
  | zero => rfl
  | succ j =>
    have hj := h j (Nat.lt_succ_self j)
    rw [endResult]
    split
    · rename_i e he
      rw [he] at hj
      exact absurd hj (Nat.lt_irrefl 0)
    · rfl

theorem accepted_mono (hij : i ≤ j) : accepted replies i ≤ accepted replies j := by
  induction hij with
  | refl => exact le_rfl
  | step _ ih => exact ih.trans (Nat.le_add_right ..)

theorem Reply.eq_written_of_pos {r : Reply} (h : 0 < r.count) : ∃ n, r = .written (n + 1) := by
  cases r with
  | failed e => exact absurd h (Nat.lt_irrefl 0)
  | written n =>
    cases n with
    | zero => exact absurd h (Nat.lt_irrefl 0)
    | succ n => exact ⟨n, rfl⟩

/-- What the loop does with its next reply. -/
theorem writeLoop_cons (onError : ℕ → ℤ → Except ℤ ℕ) (fid : BitVec 64) {total : ℕ}
    (hlt : total < buf.length) :
    ∃ req, decode req = some (.write fid ((buf.drop total).take maxChunk)) ∧ ∀ rest,
      (∀ e, writeLoop (chunkRequest fid) onError buf total (.failed e :: rest) =
        some ([req], some (onError total e))) ∧
      writeLoop (chunkRequest fid) onError buf total (.written 0 :: rest) =
        some ([req], some (.ok total)) ∧
      ∀ n, writeLoop (chunkRequest fid) onError buf total (.written (n + 1) :: rest) =
        (writeLoop (chunkRequest fid) onError buf (total + (n + 1)) rest).map
          fun r => (req :: r.1, r.2) := by
  obtain ⟨req, hreq, -, hdec⟩ := Call.chunkRequest_spec fid
    (List.length_take_le maxChunk (buf.drop total))
  refine ⟨req, hdec, fun rest => ⟨fun e => ?_, ?_, fun n => ?_⟩⟩
  · rw [writeLoop, if_pos hlt, hreq]
    rfl
  · rw [writeLoop, if_pos hlt, hreq]
    rfl
  · rw [writeLoop, if_pos hlt, hreq]
    rfl

/-- What the loop has done when it ends after the replies from `i` on: the requests, each for the
next piece, are those that are asked for. -/
structure Sent (fid : BitVec 64) (buf : List UInt8) (replies : ℕ → Reply) (i : ℕ)
    (reqs : List (List UInt8)) : Prop where
  pieces : reqs.map decode =
    (List.range' i reqs.length).map fun j => some (.write fid (nextPiece buf replies j))
  asked : ∀ j, i ≤ j → (j < i + reqs.length ↔ Asked buf replies j)

theorem Sent.nil (hdone : buf.length ≤ accepted replies i) : Sent fid buf replies i [] := by
  refine ⟨rfl, fun j hj => iff_of_false (by simpa using hj) fun h => ?_⟩
  have hmono := (accepted_mono hj : accepted replies i ≤ accepted replies j)
  have hlt := h.2
  omega

theorem Sent.last {req : List UInt8} (hdec : decode req = some (.write fid (nextPiece buf replies i)))
    (hasked : Asked buf replies i) (hnone : ¬ 0 < (replies i).count) :
    Sent fid buf replies i [req] := by
  refine ⟨by rw [List.map_singleton, hdec]; rfl, fun j hj => ?_⟩
  rw [List.length_singleton]
  rcases Nat.lt_or_eq_of_le hj with hj | rfl
  · exact iff_of_false (by omega) fun h => hnone (h.1 i hj)
  · exact iff_of_true (by omega) hasked

theorem Sent.cons {req : List UInt8} {reqs : List (List UInt8)}
    (hdec : decode req = some (.write fid (nextPiece buf replies i)))
    (hasked : Asked buf replies i) (h : Sent fid buf replies (i + 1) reqs) :
    Sent fid buf replies i (req :: reqs) := by
  refine ⟨?_, fun j hj => ?_⟩
  · rw [List.map_cons, hdec, h.pieces, List.length_cons, List.range'_succ, List.map_cons]
  · rw [List.length_cons]
    rcases Nat.lt_or_eq_of_le hj with hj | rfl
    · rw [← h.asked j hj]
      omega
    · exact iff_of_true (by omega) hasked

/-- **The loop ends.**  Entered after `i` replies that took bytes, it sends the next piece after
each reply that takes some, until the buffer or the server is done. -/
theorem writeLoop_ends (onError : ℕ → ℤ → Except ℤ ℕ) (fid : BitVec 64)
    (hbefore : ∀ j < i, 0 < (replies j).count) :
    ∃ reqs result,
      (∀ k, reqs.length ≤ k → writeLoop (chunkRequest fid) onError buf (accepted replies i)
        ((List.range' i k).map replies) = some (reqs, some result)) ∧
      Sent fid buf replies i reqs ∧ result = endResult replies onError (i + reqs.length) := by
  induction hm : buf.length - accepted replies i using Nat.strong_induction_on generalizing i with
  | h m ih =>
    by_cases hlt : accepted replies i < buf.length
    · have hasked : Asked buf replies i := ⟨hbefore, hlt⟩
      obtain ⟨req, hdec, hcons⟩ := writeLoop_cons onError fid hlt
      -- with one reply or more, the first is the one to this request
      have hfirst : ∀ k, 1 ≤ k → (List.range' i k).map replies =
          replies i :: (List.range' (i + 1) (k - 1)).map replies := by
        intro k hk
        obtain ⟨k, rfl⟩ : ∃ l, k = l + 1 := ⟨k - 1, by omega⟩
        rw [List.range'_succ, List.map_cons, Nat.add_sub_cancel]
      by_cases htook : 0 < (replies i).count
      · obtain ⟨n, hn⟩ := Reply.eq_written_of_pos htook
        have hnext : accepted replies (i + 1) = accepted replies i + (n + 1) := by
          rw [accepted, hn]
          rfl
        have hbefore' : ∀ j < i + 1, 0 < (replies j).count := by
          intro j hj
          rcases Nat.lt_succ_iff_lt_or_eq.mp hj with hj | rfl
          · exact hbefore j hj
          · exact htook
        obtain ⟨reqs, result, hrun, hsent, hend⟩ := ih _ (by rw [hnext]; omega) hbefore' rfl
        refine ⟨req :: reqs, result, fun k hk => ?_, hsent.cons hdec hasked, ?_⟩
        · rw [List.length_cons] at hk
          rw [hfirst k (by omega), hn, (hcons _).2.2, ← hnext, hrun (k - 1) (by omega)]
          rfl
        · rw [List.length_cons, show i + (reqs.length + 1) = i + 1 + reqs.length by omega]
          exact hend
      · cases hr : replies i with
        | failed e =>
          refine ⟨[req], onError (accepted replies i) e, fun k hk => ?_,
            Sent.last hdec hasked htook, ?_⟩
          · rw [hfirst k hk, hr, (hcons _).1]
          · rw [List.length_singleton, endResult, hr]
        | written n =>
          obtain rfl : n = 0 := by
            rw [hr] at htook
            exact Nat.eq_zero_of_not_pos htook
          have hsame : accepted replies (i + 1) = accepted replies i := by
            rw [accepted, hr]
            rfl
          refine ⟨[req], .ok (accepted replies i), fun k hk => ?_,
            Sent.last hdec hasked htook, ?_⟩
          · rw [hfirst k hk, hr, (hcons _).2.1]
          · rw [List.length_singleton, endResult, hr, hsame]
    · refine ⟨[], .ok (accepted replies i), fun k _ => ?_, .nil (Nat.le_of_not_lt hlt),
        (endResult_of_took onError hbefore).symm⟩
      unfold writeLoop
      rw [if_neg hlt]

/-- A write accounts for the bytes exactly when it does so with an error that ends it. -/
theorem accounts_iff (h : Honest buf replies) (onError : ℕ → ℤ → Except ℤ ℕ) :
    Accounts (writeLoop (chunkRequest fid) onError buf 0) fid buf replies ↔
      ∀ i, Asked buf replies i → ∀ e, replies i = .failed e →
        (0 < accepted replies i → onError (accepted replies i) e = .ok (accepted replies i)) ∧
        ∀ n, onError (accepted replies i) e = .ok n → n = accepted replies i := by
  obtain ⟨reqs, result, hrun, hsent, hend⟩ :=
    @writeLoop_ends buf replies 0 onError fid (fun j hj => nomatch hj)
  have hrange : ∀ k, List.range' 0 k = List.range k := fun k => List.range_eq_range'.symm
  have hpieces := hsent.pieces
  have hasked : ∀ j, j < reqs.length ↔ Asked buf replies j := fun j => by
    have hj := hsent.asked j (Nat.zero_le j)
    rwa [Nat.zero_add] at hj
  rw [Nat.zero_add] at hend
  simp only [hrange] at hrun hpieces
  -- the loop has one outcome, so what it accounts for is a matter of its result
  have hiff : Accounts (writeLoop (chunkRequest fid) onError buf 0) fid buf replies ↔
      (0 < accepted replies reqs.length → result = .ok (accepted replies reqs.length)) ∧
        ∀ n, result = .ok n → n = accepted replies reqs.length := by
    constructor
    · rintro ⟨reqs', result', hrun', -, -, hall, hview⟩
      have hsame := (hrun (max reqs.length reqs'.length) (le_max_left ..)).symm.trans
        (hrun' (max reqs.length reqs'.length) (le_max_right ..))
      cases hsame
      exact ⟨hall, hview⟩
    · exact fun hres => ⟨reqs, result, hrun, hpieces, h.accepted_le _, hres⟩
  have hnone : ∀ i j e, i < j → Asked buf replies j → replies i ≠ .failed e := by
    intro i j e hij hj he
    have htook := hj.1 i hij
    rw [he] at htook
    exact absurd htook (Nat.lt_irrefl 0)
  rw [hiff, hend]
  cases hlen : reqs.length with
  | zero =>
    refine iff_of_true ⟨fun hpos => absurd hpos (Nat.lt_irrefl 0), ?_⟩ fun i hi => ?_
    · intro n hn
      cases hn
      rfl
    · have hlt := (hasked i).mpr hi
      omega
  | succ j =>
    have hj : Asked buf replies j := (hasked j).mp (by omega)
    have hle : ∀ i, Asked buf replies i → i ≤ j := fun i hi => by
      have hlt := (hasked i).mpr hi
      omega
    cases hr : replies j with
    | failed e =>
      have hsame : accepted replies (j + 1) = accepted replies j := by
        rw [accepted, hr]
        rfl
      rw [endResult, hr, hsame]
      constructor
      · intro hres i hi e' he'
        rcases Nat.lt_or_eq_of_le (hle i hi) with hij | rfl
        · exact absurd he' (hnone i j e' hij hj)
        · rw [hr] at he'
          cases he'
          exact hres
      · exact fun hall => hall j hj e hr
    | written n =>
      rw [endResult, hr]
      refine iff_of_true ⟨fun _ => rfl, fun n hn => (Except.ok.inj hn).symm⟩ fun i hi e he => ?_
      rcases Nat.lt_or_eq_of_le (hle i hi) with hij | rfl
      · exact absurd he (hnone i j e hij hj)
      · rw [hr] at he
        cases he

theorem liblinux_accounts (h : Honest buf replies) :
    Accounts (Liblinux.fsWrite fid buf) fid buf replies := by
  refine (accounts_iff h _).mpr fun i _ e _ => ⟨fun hpos => if_pos hpos, fun n hn => ?_⟩
  split at hn
  · exact (Except.ok.inj hn).symm
  · cases hn

theorem qlibc_accounts_iff (h : Honest buf replies) :
    Accounts (Qlibc.write fid buf) fid buf replies ↔
      ∀ i, 0 < i → Asked buf replies i → ∀ e, replies i ≠ .failed e := by
  refine (accounts_iff h _).trans (forall_congr' fun i => ?_)
  constructor
  · intro hall hi hasked e he
    have hres := (hall hasked e he).1 (accepted_pos hi hasked.1)
    cases hres
  · intro hall hasked e he
    refine ⟨fun hpos => ?_, fun n hn => nomatch hn⟩
    have hi : 0 < i := Nat.pos_of_ne_zero fun hzero => by
      rw [hzero, accepted] at hpos
      exact absurd hpos (Nat.lt_irrefl 0)
    exact absurd he (hall hi hasked e)

/-- **When a write accounts for every byte.**  For any buffer and any replies to its pieces,
`fs_write` of `liblinux` ends and returns the number of bytes the server took.  `write` of `qlibc`
does exactly when no request behind the first one is answered with an error: it returns the error,
and the bytes taken before are not accounted for. -/
theorem writes_account_iff (h : Honest buf replies) :
    Accounts (Liblinux.fsWrite fid buf) fid buf replies ∧
      (Accounts (Qlibc.write fid buf) fid buf replies ↔
        ∀ i, 0 < i → Asked buf replies i → ∀ e, replies i ≠ .failed e) :=
  ⟨liblinux_accounts h, qlibc_accounts_iff h⟩

/-- A server that takes one byte at a time, and fails from the `n`-th request on. -/
def oneByOne (n : ℕ) : ℕ → Reply := fun i => if i < n then .written 1 else .failed 5

/-- Two bytes, and a server that takes both. -/
theorem writes_account_two : Accounts (Qlibc.write 7 [1, 2]) 7 [1, 2] (oneByOne 2) := by
  have hhonest : Honest [1, 2] (oneByOne 2) := fun
    | 0 => by decide
    | 1 => by decide
    | i + 2 => Nat.zero_le _
  refine (writes_account_iff hhonest).2.mpr fun i hi hasked e he => ?_
  by_cases hlast : i < 2
  · rw [oneByOne, if_pos hlast] at he
    cases he
  · have hall : accepted (oneByOne 2) 2 ≤ accepted (oneByOne 2) i := accepted_mono (by omega)
    exact absurd hasked.2 (Nat.not_lt.mpr hall)

/-- **One byte is taken and the next request fails**: the caller of `qlibc` learns of the error
only. -/
theorem write_loses_count :
    Honest [1, 2] (oneByOne 1) ∧ accepted (oneByOne 1) 2 = 1 ∧
    (∃ reqs, Qlibc.write 7 [1, 2] [oneByOne 1 0, oneByOne 1 1] = some (reqs, some (.error 5)) ∧
      reqs.length = 2) ∧
    ¬ Accounts (Qlibc.write 7 [1, 2]) 7 [1, 2] (oneByOne 1) := by
  have hhonest : Honest [1, 2] (oneByOne 1) := fun
    | 0 => by decide
    | i + 1 => Nat.zero_le _
  refine ⟨hhonest, rfl, ?_, fun h => ?_⟩
  · obtain ⟨req₀, -, h₀⟩ := writeLoop_cons (fun _ e => .error e) 7
      (show 0 < ([1, 2] : List UInt8).length by decide)
    obtain ⟨req₁, -, h₁⟩ := writeLoop_cons (fun _ e => .error e) 7
      (show 0 + (0 + 1) < ([1, 2] : List UInt8).length by decide)
    refine ⟨[req₀, req₁], ?_, rfl⟩
    have hsecond := (h₁ []).1 5
    rw [Qlibc.write, show oneByOne 1 0 = .written (0 + 1) from rfl,
      show oneByOne 1 1 = .failed 5 from rfl, (h₀ _).2.2, hsecond]
    rfl
  · have hasked : Asked [1, 2] (oneByOne 1) 1 := ⟨by decide, by decide⟩
    exact (qlibc_accounts_iff hhonest).mp h 1 Nat.one_pos hasked 5 rfl

end QuackOS.Fs
