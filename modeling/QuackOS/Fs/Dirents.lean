import QuackOS.Lib.Fuel
import QuackOS.Fs.Listing

/-!
# Directory entries from any bytes

`parse_dirents` of `qlibc` on a buffer that need not be what the server writes.  A record says
itself how long it is; `parse_one` checks that it has a length and ends in the buffer, and then
takes its name from the byte 19 bytes in.

* `visits` — the iteration, with the offsets it looks at;
* `parseOne_spec` — what becomes of one record;
* `parses_iff` — the iteration comes to an end without an index out of range exactly when no record
  it comes to is shorter than the fixed part of a record.
-/

namespace QuackOS.Fs

open QuackOS.Slice

/-! ## The iteration -/

/-- `d_reclen` of the record at an offset. -/
def recordLen (buf : List UInt8) (offset : ℕ) : ℕ := (wordAt buf (offset + 16) 2).toNat

/-- There is a record at the offset: the fixed part of one is in the buffer, and the record has a
length and ends in it. -/
def IsRecord (buf : List UInt8) (offset : ℕ) : Prop :=
  offset + 19 ≤ buf.length ∧ recordLen buf offset ≠ 0 ∧ offset + recordLen buf offset ≤ buf.length

/-- The calls of `parse_one` that iterating over `parse_dirents` makes, each with the offset it
looks at and the entry it finds there; nothing, when a call panics or the fuel runs out. -/
def visits (buf : List UInt8) : (fuel offset : ℕ) → Option (List (ℕ × Option Dirent))
  | 0, _ => none
  | fuel + 1, offset =>
    match parseOne buf offset with
    | none => none
    | some none => some [(offset, none)]
    | some (some (entry, next)) =>
        (visits buf fuel next).map fun vs => (offset, some entry) :: vs

/-- The iteration gets from one offset to another. -/
inductive Reaches (buf : List UInt8) : ℕ → ℕ → Prop
  | here (offset : ℕ) : Reaches buf offset offset
  | next {offset offset' : ℕ} (record : IsRecord buf offset)
      (rest : Reaches buf (offset + recordLen buf offset) offset') : Reaches buf offset offset'

/-- The iteration comes to an end, has names of at most 256 bytes, and goes forward. -/
def Parses (buf : List UInt8) : Prop :=
  ∃ vs, (∀ fuel, buf.length < fuel → visits buf fuel 0 = some vs) ∧
    (∀ v ∈ vs, ∀ e ∈ v.2, e.name.length ≤ 256) ∧ (vs.map Prod.fst).Pairwise (· < ·)

/-! ## One record -/

variable {buf : List UInt8} {offset fuel : ℕ}

theorem parseOne_of_not (h : ¬ IsRecord buf offset) : parseOne buf offset = some none := by
  unfold parseOne
  split
  · rfl
  · rename_i hroom
    dsimp only
    split
    · rfl
    · rename_i hlen
      rw [not_or] at hlen
      exact absurd ⟨Nat.le_of_not_lt hroom, hlen.1, Nat.le_of_not_lt hlen.2⟩ h

theorem parseOne_of_short (h : IsRecord buf offset) (hshort : recordLen buf offset < 19) :
    parseOne buf offset = none := by
  obtain ⟨hroom, hne, hend⟩ := h
  unfold recordLen at hne hend hshort
  unfold parseOne
  dsimp only
  rw [if_neg (by omega), if_neg (by omega), Nat.min_eq_left hend, if_pos (by omega)]

/-- **A record that has its fixed part is parsed**, and the next one is behind it. -/
theorem parseOne_spec (h : IsRecord buf offset) (hlong : 19 ≤ recordLen buf offset) :
    ∃ e, parseOne buf offset = some (some (e, offset + recordLen buf offset)) ∧
      e.name.length ≤ 256 := by
  obtain ⟨hroom, hne, hend⟩ := h
  refine ⟨⟨wordAt buf offset 8, wordAt buf (offset + 8) 8, buf.getD (offset + 18) 0,
    (untilNul ((buf.take (offset + recordLen buf offset)).drop (offset + 19))).take 256⟩, ?_,
    List.length_take_le ..⟩
  unfold recordLen at hne hend hlong ⊢
  unfold parseOne
  dsimp only
  rw [if_neg (by omega), if_neg (by omega), Nat.min_eq_left hend, if_neg (by omega)]

/-! ## The whole iteration -/

/-- No record from the offset on is shorter than the fixed part. -/
def Sized (buf : List UInt8) (offset : ℕ) : Prop :=
  ∀ offset', Reaches buf offset offset' → IsRecord buf offset' → 19 ≤ recordLen buf offset'

theorem sized_iff (h : IsRecord buf offset) :
    Sized buf offset ↔ 19 ≤ recordLen buf offset ∧ Sized buf (offset + recordLen buf offset) := by
  constructor
  · exact fun hs => ⟨hs offset (.here _) h, fun offset' hr => hs offset' (.next h hr)⟩
  · rintro ⟨hlong, hrest⟩ offset' hr
    cases hr with
    | here => exact fun _ => hlong
    | next _ hr => exact hrest offset' hr

theorem sized_of_not (h : ¬ IsRecord buf offset) : Sized buf offset := by
  intro offset' hr
  cases hr with
  | here => exact fun hrec => absurd hrec h
  | next hrec _ => exact absurd hrec h

/-- **The iteration settles.**  Each record moves it forward, so the fuel is what is left of the
buffer. -/
theorem visits_settles (buf : List UInt8) (offset : ℕ) :
    Fuel.Settles (fun fuel => visits buf fuel offset) (buf.length - offset + 1)
      (Sized buf offset) := by
  induction hm : buf.length - offset using Nat.strong_induction_on generalizing offset with
  | h m ih =>
    by_cases hrec : IsRecord buf offset
    · by_cases hlong : 19 ≤ recordLen buf offset
      · obtain ⟨e, hparse, -⟩ := parseOne_spec hrec hlong
        have hle := hrec.1
        have hrest := ih _ (by omega) (offset + recordLen buf offset) rfl
        obtain ⟨v, hv, hiff⟩ := hrest
        refine ⟨v.map fun vs => (offset, some e) :: vs, fun fuel hfuel => ?_, ?_⟩
        · obtain ⟨n, rfl⟩ : ∃ n, fuel = n + 1 := ⟨fuel - 1, by omega⟩
          have hround := hv n (by omega)
          dsimp only at hround ⊢
          rw [visits, hparse]
          dsimp only
          rw [hround]
        · rw [sized_iff hrec, ← hiff, ne_eq, Option.map_eq_none_iff]
          exact (and_iff_right hlong).symm
      · refine Fuel.Settles.panic (fun hs => hlong (hs offset (.here _) hrec)) fun fuel hfuel => ?_
        obtain ⟨n, rfl⟩ : ∃ n, fuel = n + 1 := ⟨fuel - 1, by omega⟩
        rw [visits, parseOne_of_short hrec (Nat.lt_of_not_le hlong)]
    · refine Fuel.Settles.result (r := [(offset, none)]) (sized_of_not hrec) fun fuel hfuel => ?_
      obtain ⟨n, rfl⟩ : ∃ n, fuel = n + 1 := ⟨fuel - 1, by omega⟩
      rw [visits, parseOne_of_not hrec]

/-- What an iteration that comes back has found. -/
theorem visits_spec {vs : List (ℕ × Option Dirent)} (h : visits buf fuel offset = some vs) :
    (∀ v ∈ vs, offset ≤ v.1) ∧ (∀ v ∈ vs, ∀ e ∈ v.2, e.name.length ≤ 256) ∧
      (vs.map Prod.fst).Pairwise (· < ·) := by
  induction fuel generalizing offset vs with
  | zero => cases h
  | succ fuel ih =>
    rw [visits] at h
    by_cases hrec : IsRecord buf offset
    · by_cases hlong : 19 ≤ recordLen buf offset
      · obtain ⟨e, hparse, hname⟩ := parseOne_spec hrec hlong
        rw [hparse] at h
        obtain ⟨rest, hrest, rfl⟩ := Option.map_eq_some_iff.mp h
        obtain ⟨hfrom, hnames, hup⟩ := ih hrest
        have hlt : ∀ v ∈ rest, offset < v.1 := fun v hv => by
          have hge := hfrom v hv
          omega
        refine ⟨?_, ?_, ?_⟩
        · exact List.forall_mem_cons.mpr ⟨le_rfl, fun v hv => Nat.le_of_lt (hlt v hv)⟩
        · refine List.forall_mem_cons.mpr ⟨fun e' he' => ?_, hnames⟩
          cases he'
          exact hname
        · rw [List.map_cons, List.pairwise_cons]
          exact ⟨List.forall_mem_map.mpr hlt, hup⟩
      · rw [parseOne_of_short hrec (Nat.lt_of_not_le hlong)] at h
        cases h
    · rw [parseOne_of_not hrec] at h
      cases h
      simp

/-- **When the iteration is total.**  Over any bytes it comes to an end, with names of at most 256
bytes and at offsets that grow, exactly when no record it comes to has a length of 1 to 18.  On such
a record the name starts behind its end, and `parse_one` slices out of range. -/
theorem parses_iff (buf : List UInt8) :
    Parses buf ↔
      ∀ offset, Reaches buf 0 offset → IsRecord buf offset → 19 ≤ recordLen buf offset := by
  have hsettles := visits_settles buf 0
  rw [Nat.sub_zero] at hsettles
  refine Iff.trans ?_ hsettles.comes_iff
  constructor
  · rintro ⟨vs, hvs, -⟩
    exact ⟨vs, fun fuel hfuel => hvs fuel hfuel⟩
  · rintro ⟨vs, hvs⟩
    obtain ⟨-, hnames, hup⟩ := visits_spec (hvs _ le_rfl)
    exact ⟨vs, fun fuel hfuel => hvs fuel hfuel, hnames, hup⟩

/-- The fixed part of a record whose length is one byte. -/
def shortRecord : List UInt8 := List.replicate 16 0 ++ [1, 0, 8]

/-- **A record of one byte is no end of the iteration**: the name is looked for from byte 19 to
byte 1. -/
theorem shortRecord_panics : parseOne shortRecord 0 = none ∧ ¬ Parses shortRecord := by
  refine ⟨by decide, fun h => ?_⟩
  obtain ⟨vs, hvs, -⟩ := h
  have hone := hvs 20 (by decide)
  rw [visits, show parseOne shortRecord 0 = none by decide] at hone
  cases hone

/-! ## The entries of a listing -/

/-- What the calls find is what `parse_dirents` iterates over. -/
theorem parseLoop_of_visits {vs : List (ℕ × Option Dirent)} {n : ℕ}
    (h : visits buf fuel offset = some vs) (hn : fuel ≤ n + 1) :
    parseLoop buf n offset = some (vs.filterMap Prod.snd) := by
  induction fuel generalizing offset vs n with
  | zero => cases h
  | succ fuel ih =>
    rw [visits] at h
    cases hparse : parseOne buf offset with
    | none =>
      rw [hparse] at h
      cases h
    | some found =>
      rw [hparse] at h
      cases found with
      | none =>
        cases h
        cases n with
        | zero => rfl
        | succ n => rw [parseLoop, hparse]; rfl
      | some found =>
        obtain ⟨rest, hrest, rfl⟩ := Option.map_eq_some_iff.mp h
        cases n with
        | zero =>
          obtain rfl : fuel = 0 := by omega
          cases hrest
        | succ n =>
          rw [parseLoop, hparse]
          dsimp only
          rw [ih hrest (Nat.le_of_succ_le_succ hn)]
          rfl

theorem parseDirents_of_parses (h : Parses buf) :
    ∃ es, parseDirents buf = some es ∧ ∀ e ∈ es, e.name.length ≤ 256 := by
  obtain ⟨vs, hvs, hnames, -⟩ := h
  refine ⟨vs.filterMap Prod.snd, parseLoop_of_visits (hvs _ (Nat.lt_succ_self _)) le_rfl, ?_⟩
  intro e he
  obtain ⟨v, hv, hve⟩ := List.mem_filterMap.mp he
  exact hnames v hv e hve

end QuackOS.Fs
