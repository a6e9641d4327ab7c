import QuackOS.Ext4.DirFiles
import QuackOS.Fs.Client
import QuackOS.Fs.Coherence

/-!
# Listing a directory

A client lists a directory by calling `fs_getdents` of `liblinux` or `getdents` of `qlibc` until
it returns 0, and takes the records apart with `parse_dirents`.  The server answers with at most
240 bytes, so the listing is cut into pieces and goes on from the byte the last one ended at.

* `parseOne`, `parseDirents` — the parser of `qlibc`;
* `listing` — the calls of a client, one after the other;
* `listing_of_readsFrom` — the listing ends, with the records in use up to the first one that
  is too long for an answer;
* `listing_iff` — **the listing is complete exactly when no record in use is too long, no name
  has a zero byte in it, and the directory has links.**
-/

namespace QuackOS.Fs

open QuackOS.Slice
open Ext4 (DirRecord contents dirents)

/-! ## The parser -/

/-- `Dirent`, with the `name_len` bytes of its name. -/
structure Dirent where
  dIno : BitVec 64
  dOff : BitVec 64
  dType : UInt8
  name : List UInt8
deriving DecidableEq

/-- `parse_one`; `none` is the panic on a record that ends before its name. -/
def parseOne (buf : List UInt8) (offset : ℕ) : Option (Option (Dirent × ℕ)) :=
  if buf.length < offset + 19 then some none
  else
    let reclen := (wordAt buf (offset + 16) 2).toNat
    if reclen = 0 ∨ buf.length < offset + reclen then some none
    else
      let nameEnd := min (offset + reclen) buf.length
      if nameEnd < offset + 19 then none
      else
        let nameSlice := (buf.take nameEnd).drop (offset + 19)
        some (some (⟨wordAt buf offset 8, wordAt buf (offset + 8) 8, buf.getD (offset + 18) 0,
          (untilNul nameSlice).take 256⟩, offset + reclen))

/-- The loop over a `DirentIterator`.  Every record has at least 19 bytes. -/
def parseLoop (buf : List UInt8) : (fuel offset : ℕ) → Option (List Dirent)
  | 0, _ => some []
  | fuel + 1, offset =>
    match parseOne buf offset with
    | none => none
    | some none => some []
    | some (some (entry, next)) => (parseLoop buf fuel next).map fun es => entry :: es

/-- All that `parse_dirents` iterates over. -/
def parseDirents (buf : List UInt8) : Option (List Dirent) := parseLoop buf buf.length 0

/-- What an entry says: the inode number, the type and the name. -/
abbrev Listed := BitVec 64 × UInt8 × List UInt8

def Dirent.listed (e : Dirent) : Listed := (e.dIno, e.dType, e.name)

/-- What a listing should say about a record. -/
def listed (r : DirRecord) : Listed :=
  (BitVec.ofNat 64 r.entry.inodeNum.toNat, r.entry.fileType, r.entry.name.map UInt8.ofBitVec)

/-- An entry with its name cut off at the first zero byte. -/
def cut (e : Listed) : Listed := (e.1, e.2.1, untilNul e.2.2)

/-! ## What the parser makes of the records -/

section Parser

variable {r : DirRecord} {rs : List DirRecord} {pre post : List UInt8} {off fuel n v : ℕ}

/-- The bytes of a number, as the server has them and as a client reads them. -/
theorem map_leList (hn : n ≤ 8) :
    (Ext4.leList n v).map UInt8.ofBitVec = leBytes n (BitVec.ofNat 64 v) := by
  unfold Ext4.leList leBytes
  rw [List.map_map]
  refine List.map_congr_left fun i hi => ?_
  have hi' := List.mem_range.mp hi
  have hbyte : BitVec.ofNat 8 (v / 256 ^ i) = Bytes.byte (BitVec.ofNat 64 v) i := by
    refine BitVec.eq_of_getLsbD_eq fun k hk => ?_
    rw [Bytes.byte, BitVec.getLsbD_extractLsb', BitVec.getLsbD_ofNat, BitVec.getLsbD_ofNat]
    have hpow : 256 ^ i = 2 ^ (8 * i) := by
      rw [pow_mul]
      norm_num
    rw [hpow, Nat.testBit_div_two_pow]
    simp only [hk, decide_true, Bool.true_and, show 8 * i + k < 64 by omega]
    rw [Nat.add_comm]
  simp only [Function.comp, hbyte]

/-- The bytes of the `getdents64` record for a record. -/
def direntBytes (r : DirRecord) (off : ℕ) : List UInt8 :=
  (Ext4.DirContent.linuxDirent r.entry off).map UInt8.ofBitVec

/-- The zeros behind the name. -/
def padding (r : DirRecord) : ℕ := r.direntLen - 19 - r.entry.name.length

theorem direntBytes_eq : direntBytes r off =
    leBytes 8 (BitVec.ofNat 64 r.entry.inodeNum.toNat) ++ (leBytes 8 (BitVec.ofNat 64 off) ++
      (leBytes 2 (BitVec.ofNat 64 r.direntLen) ++ (r.entry.fileType ::
        (r.entry.name.map UInt8.ofBitVec ++ List.replicate (padding r) 0)))) := by
  unfold direntBytes Ext4.DirContent.linuxDirent
  simp only [List.map_append, map_leList (show 8 ≤ 8 by decide), map_leList (show 2 ≤ 8 by decide),
    List.map_cons, List.map_replicate, List.append_assoc, List.cons_append, List.nil_append]
  rfl

theorem length_direntBytes : (direntBytes r off).length = r.direntLen := by
  rw [direntBytes, List.length_map, Ext4.length_linuxDirent]

/-- A record for a name has room for the zero byte behind it. -/
theorem direntLen_bounds (r : DirRecord) : 20 + r.entry.name.length ≤ r.direntLen ∧
    r.direntLen < 2 ^ 16 ∧ r.entry.name.length ≤ 255 := by
  have hname := r.length_name
  have hlt := r.entry.nameLen.toNat_lt
  unfold DirRecord.direntLen
  omega

/-- Zeros behind some bytes are not read. -/
theorem untilNul_append_zeros {bs : List UInt8} {k : ℕ} (hk : 0 < k) :
    untilNul (bs ++ List.replicate k 0) = untilNul bs := by
  obtain ⟨k, rfl⟩ : ∃ j, k = j + 1 := ⟨k - 1, by omega⟩
  have hzeros : (List.replicate (k + 1) (0 : UInt8)).takeWhile (· != 0) = [] := by
    rw [List.replicate_succ, List.takeWhile_cons_of_neg (by decide)]
  unfold untilNul
  rw [List.takeWhile_append, hzeros, List.append_nil]
  split
  · rename_i h
    exact (List.takeWhile_prefix _).eq_of_length h |>.symm
  · rfl

/-- **One record is parsed.** -/
theorem parseOne_dirent : ∃ e, parseOne (pre ++ (direntBytes r off ++ post)) pre.length =
    some (some (e, pre.length + r.direntLen)) ∧ e.listed = cut (listed r) := by
  obtain ⟨hroom, hmax, hname⟩ := direntLen_bounds r
  have hlen := @length_direntBytes r off
  have hreclen : (BitVec.ofNat 64 r.direntLen).toNat = r.direntLen := by
    rw [BitVec.toNat_ofNat, Nat.mod_eq_of_lt (by omega)]
  have hino : wordAt (pre ++ (direntBytes r off ++ post)) pre.length 8 =
      BitVec.ofNat 64 r.entry.inodeNum.toNat := by
    rw [direntBytes_eq, List.append_assoc, ← List.append_assoc pre]
    exact wordAt_append rfl (BitVec.isLt _)
  have hrec : wordAt (pre ++ (direntBytes r off ++ post)) (pre.length + 16) 2 =
      BitVec.ofNat 64 r.direntLen := by
    have h := @wordAt_append (pre ++ (leBytes 8 (BitVec.ofNat 64 r.entry.inodeNum.toNat) ++
      leBytes 8 (BitVec.ofNat 64 off))) (r.entry.fileType ::
        (r.entry.name.map UInt8.ofBitVec ++ List.replicate (padding r) 0) ++ post)
      (pre.length + 16) 2 (BitVec.ofNat 64 r.direntLen) (by simp) (by rw [hreclen]; omega)
    rw [direntBytes_eq]
    simpa only [List.append_assoc, List.cons_append] using h
  have htype : (pre ++ (direntBytes r off ++ post)).getD (pre.length + 18) 0 = r.entry.fileType := by
    rw [direntBytes_eq]
    simp [List.getD_eq_getElem?_getD, List.getElem?_append, List.length_append]
  have hslice : ((pre ++ (direntBytes r off ++ post)).take (pre.length + r.direntLen)).drop
      (pre.length + 19) = r.entry.name.map UInt8.ofBitVec ++ List.replicate (padding r) 0 := by
    have htake : (pre ++ (direntBytes r off ++ post)).take (pre.length + r.direntLen) =
        pre ++ direntBytes r off := by
      rw [← List.append_assoc, ← hlen, ← List.length_append, List.take_left]
    have hsplit : pre ++ direntBytes r off = pre ++ (leBytes 8 (BitVec.ofNat 64
        r.entry.inodeNum.toNat) ++ leBytes 8 (BitVec.ofNat 64 off) ++
        leBytes 2 (BitVec.ofNat 64 r.direntLen) ++ [r.entry.fileType]) ++
        (r.entry.name.map UInt8.ofBitVec ++ List.replicate (padding r) 0) := by
      rw [direntBytes_eq]
      simp
    rw [htake, hsplit, List.drop_left' (by simp)]
  refine ⟨⟨BitVec.ofNat 64 r.entry.inodeNum.toNat,
    wordAt (pre ++ (direntBytes r off ++ post)) (pre.length + 8) 8, r.entry.fileType,
    untilNul (r.entry.name.map UInt8.ofBitVec)⟩, ?_, rfl⟩
  have htotal : (pre ++ (direntBytes r off ++ post)).length =
      pre.length + r.direntLen + post.length := by
    rw [List.length_append, List.length_append, hlen]
    omega
  have hcut : (untilNul (r.entry.name.map UInt8.ofBitVec)).length ≤ 256 := by
    have h := length_untilNul_le (r.entry.name.map UInt8.ofBitVec)
    rw [List.length_map] at h
    omega
  unfold parseOne
  dsimp only
  rw [hrec, hreclen, htotal, if_neg (by omega), if_neg (by omega), Nat.min_eq_left (by omega),
    if_neg (by omega), hino, htype, hslice, untilNul_append_zeros (by unfold padding; omega),
    List.take_of_length_le hcut]

/-- The records a listing is about, as the parser shows them. -/
def parsed (rs : List DirRecord) : List Listed :=
  (rs.filter DirRecord.live).map fun r => cut (listed r)

@[simp] theorem parsed_append (rs ss : List DirRecord) :
    parsed (rs ++ ss) = parsed rs ++ parsed ss := by
  simp [parsed]

theorem parsed_cons_of_dead (h : r.live = false) : parsed (r :: rs) = parsed rs := by
  rw [parsed, parsed, List.filter_cons_of_neg (by simp [h])]

theorem parsed_cons_of_live (h : r.live = true) :
    parsed (r :: rs) = cut (listed r) :: parsed rs := by
  rw [parsed, parsed, List.filter_cons_of_pos h, List.map_cons]

theorem dirents_cons_of_dead (h : r.live = false) :
    dirents off (r :: rs) = dirents (off + r.bytes.length) rs := by
  simp [dirents, h]

theorem map_dirents_of_live (h : r.live = true) : (dirents off (r :: rs)).map UInt8.ofBitVec =
    direntBytes r (off + r.bytes.length) ++
      (dirents (off + r.bytes.length) rs).map UInt8.ofBitVec := by
  simp [dirents, h, direntBytes]

theorem length_parsed_le : (parsed rs).length ≤ (dirents off rs).length := by
  induction rs generalizing off with
  | nil => exact le_rfl
  | cons r rs ih =>
    have hrest := @ih (off + r.bytes.length)
    cases hlive : r.live with
    | false => rwa [parsed_cons_of_dead hlive, dirents_cons_of_dead hlive]
    | true =>
      have hlen := congrArg List.length (@map_dirents_of_live r rs off hlive)
      rw [List.length_append, List.length_map, List.length_map, length_direntBytes] at hlen
      have := direntLen_bounds r
      rw [parsed_cons_of_live hlive, List.length_cons]
      omega

theorem parseLoop_dirents (hfuel : (parsed rs).length ≤ fuel) :
    ∃ es, parseLoop (pre ++ (dirents off rs).map UInt8.ofBitVec) fuel pre.length = some es ∧
      es.map Dirent.listed = parsed rs := by
  induction rs generalizing pre off fuel with
  | nil =>
    refine ⟨[], ?_, rfl⟩
    cases fuel with
    | zero => rfl
    | succ fuel =>
      have hend : parseOne (pre ++ (dirents off []).map UInt8.ofBitVec) pre.length = some none := by
        rw [parseOne, if_pos (by simp [dirents])]
      rw [parseLoop, hend]
  | cons r rs ih =>
    cases hlive : r.live with
    | false =>
      rw [parsed_cons_of_dead hlive] at hfuel ⊢
      rw [dirents_cons_of_dead hlive]
      exact ih hfuel
    | true =>
      rw [parsed_cons_of_live hlive, List.length_cons] at hfuel
      obtain ⟨fuel, rfl⟩ : ∃ f, fuel = f + 1 := ⟨fuel - 1, by omega⟩
      obtain ⟨e, he, hshow⟩ := @parseOne_dirent r pre
        ((dirents (off + r.bytes.length) rs).map UInt8.ofBitVec) (off + r.bytes.length)
      obtain ⟨es, hes, hshown⟩ := @ih (pre ++ direntBytes r (off + r.bytes.length))
        (off + r.bytes.length) fuel (by omega)
      rw [List.length_append, length_direntBytes, List.append_assoc] at hes
      refine ⟨e :: es, ?_, ?_⟩
      · rw [parseLoop, map_dirents_of_live hlive, he]
        dsimp only
        rw [hes, Option.map_some]
      · rw [List.map_cons, hshow, hshown, parsed_cons_of_live hlive]

/-- **The parser takes the records in use apart.** -/
theorem parseDirents_dirents : ∃ es, parseDirents ((dirents off rs).map UInt8.ofBitVec) = some es ∧
    es.map Dirent.listed = parsed rs := by
  have hlen := @length_parsed_le rs off
  exact @parseLoop_dirents rs [] off _ (by rwa [List.length_map])

end Parser

/-! ## The calls -/

/-- The libraries that have the call. -/
inductive Library
  | liblinux | qlibc
deriving DecidableEq

/-- The request of `fs_getdents` and of `getdents`. -/
def Library.request : Library → BitVec 64 → BitVec 64 → Option (List UInt8)
  | .liblinux => Liblinux.fsGetdents
  | .qlibc => Qlibc.getdents

/-- What both make of the response: an error, or the number of bytes and what is copied into the
buffer of the caller. -/
def readEntries (resp : List UInt8) (bufLen : ℕ) : Option (Except ℤ (ℕ × List UInt8)) :=
  let err := (wordAt resp 0 8).toInt
  if err < 0 then some (.error (-err))
  else
    let n := (wordAt resp 8 8).toNat
    let copy := min n bufLen
    if 16 + copy ≤ resp.length then some (.ok (n, (resp.drop 16).take copy)) else none

namespace FsServer

/-- One call of a client with a buffer of `bufLen` bytes. -/
def getdentsCall (lib : Library) (fid bufLen : ℕ) (s : FsServer Mount ℕ) :
    Option (FsServer Mount ℕ × Except ℤ (ℕ × List UInt8)) := do
  let req ← lib.request (BitVec.ofNat 64 fid) (BitVec.ofNat 64 bufLen)
  let (s', resp) ← s.dispatch Mount.vfs req
  let r ← readEntries resp bufLen
  return (s', r)

/-- The calls of a client with a buffer of 4096 bytes, until one returns 0: the entries of all
of them.  `none` is a panic, an error, or more calls than `rounds`. -/
def listing (lib : Library) (fid : ℕ) : (rounds : ℕ) → FsServer Mount ℕ → Option (List Dirent)
  | 0, _ => none
  | rounds + 1, s =>
    match s.getdentsCall lib fid 4096 with
    | some (s', .ok (n, bs)) =>
      if n = 0 then some []
      else do
        let es ← parseDirents (bs.take n)
        let rest ← listing lib fid rounds s'
        return es ++ rest
    | _ => none

/-- The listing ends after some number of calls, with these entries. -/
def Lists (lib : Library) (fid : ℕ) (s : FsServer Mount ℕ) (es : List Listed) : Prop :=
  ∃ rounds ds, listing lib fid rounds s = some ds ∧ ds.map Dirent.listed = es

/-! ## One call -/

section Calls

variable {lib : Library} {s : FsServer Mount ℕ} {m : Mount} {fid pos : ℕ} {f : File ℕ}
  {data : List UInt8} {c : CachedInode} {before rest : List DirRecord} {ino : Ext4.Ext4Inode}

theorem file_setFile (h : s.file 0 fid = some f) (f' : File ℕ) (vfs : Mount) :
    (FsServer.setFile { s with vfs := vfs } 0 fid (some f')).file 0 fid = some f' := by
  have hsame : FsServer.file { s with vfs := vfs } 0 fid = some f := h
  rw [file_setFile_eq hsame, Function.update_self]

/-- Both libraries send the same request, and the server reads it. -/
theorem decode_request (lib : Library) (a b : BitVec 64) :
    ∃ req, lib.request a b = some req ∧ decode req = some (.getdents a b) := by
  refine ⟨Op.getdents.byte :: (leBytes 8 a ++ (leBytes 8 b ++ List.replicate 239 0)), ?_,
    decode_fidLen.2⟩
  cases lib <;> exact fidLenRequest_eq

/-- The answer to a listing is read back. -/
theorem readEntries_okResponse (hdata : data.length ≤ 240) :
    ∃ resp, okResponse (BitVec.ofNat 64 data.length) data = some resp ∧
      readEntries resp 4096 = some (.ok (data.length, data)) := by
  refine ⟨_, okResponse_eq hdata, ?_⟩
  have hn : (BitVec.ofNat 64 data.length).toNat = data.length := by
    rw [BitVec.toNat_ofNat, Nat.mod_eq_of_lt (by omega)]
  have herr := @wordAt_append [] (leBytes 8 (BitVec.ofNat 64 data.length) ++ data ++
    List.replicate (240 - data.length) 0) 0 8 0 rfl (by decide)
  have hlen := @wordAt_append (leBytes 8 0) (data ++ List.replicate (240 - data.length) 0) 8 8
    (BitVec.ofNat 64 data.length) (by simp) (BitVec.isLt _)
  have hdrop : (leBytes 8 0 ++ leBytes 8 (BitVec.ofNat 64 data.length) ++ data ++
      List.replicate (240 - data.length) 0).drop 16 = data ++ List.replicate (240 - data.length) 0 := by
    rw [List.append_assoc, List.drop_left' (by simp)]
  simp only [List.nil_append, List.append_assoc] at herr hlen hdrop ⊢
  have htotal : (leBytes 8 0 ++ (leBytes 8 (BitVec.ofNat 64 data.length) ++ (data ++
      List.replicate (240 - data.length) (0 : UInt8)))).length = 256 := by
    simp only [List.length_append, length_leBytes, List.length_replicate]
    omega
  unfold readEntries
  dsimp only
  rw [herr, hlen, hn, if_neg (by decide), Nat.min_eq_left (by omega), htotal, if_pos (by omega),
    hdrop, List.take_left]

/-- A call that the file systems answer with some bytes. -/
theorem getdentsCall_eq (hfile : s.file 0 fid = some f) (hdir : s.vfs.isDir f.dentry = true)
    (hget : s.vfs.getdents f.dentry f.pos 240 = some (m, some (pos, data)))
    (hdata : data.length ≤ 240) : s.getdentsCall lib fid 4096 =
      some (FsServer.setFile { s with vfs := m } 0 fid (some { f with pos := pos }),
        .ok (data.length, data)) := by
  obtain ⟨req, hreq, hdec⟩ := decode_request lib (BitVec.ofNat 64 fid) (BitVec.ofNat 64 4096)
  obtain ⟨resp, hresp, hread⟩ := readEntries_okResponse hdata
  have hfid : (BitVec.ofNat 64 fid).toNat = fid := by
    have hlt : fid < 256 := lt_of_file hfile
    rw [BitVec.toNat_ofNat, Nat.mod_eq_of_lt (by omega)]
  have hserve : s.getdents Mount.vfs 0 fid (min (BitVec.ofNat 64 4096).toNat 240) =
      some (FsServer.setFile { s with vfs := m } 0 fid (some { f with pos := pos }), .ok data) := by
    rw [getdents, hfile]
    change (if s.vfs.isDir f.dentry = true then _ else _) = _
    rw [if_pos hdir]
    change ((s.vfs.getdents f.dentry f.pos 240).bind _) = _
    rw [hget]
    rfl
  have hdispatch : s.dispatch Mount.vfs req =
      some (FsServer.setFile { s with vfs := m } 0 fid (some { f with pos := pos }), resp) := by
    rw [dispatch, hdec, Option.bind_some, serve, hfid, hserve]
    simp only [Option.bind_eq_bind, Option.bind_some, respond,
      List.take_of_length_le hdata, hresp, Option.map_some]
  simp only [getdentsCall, hreq, hdispatch, hread, Option.bind_eq_bind, Option.bind_some]
  rfl

/-- An open directory, of which the records `before` have been passed over. -/
structure Passed (s : FsServer Mount ℕ) (fid : ℕ) (f : File ℕ) (c : CachedInode)
    (before rest : List DirRecord) (ino : Ext4.Ext4Inode) : Prop where
  file : s.file 0 fid = some f
  isDir : s.vfs.isDir f.dentry = true
  inode : s.vfs.inodeAt f.dentry = some c
  pos : f.pos = (contents before).length
  reads : c.ext4.ReadsFrom s.vfs.volume.fs before rest ino

/-- **One call** passes over some more records, and returns those in use among them. -/
theorem Passed.call (lib : Library) (h : Passed s fid f c before rest ino)
    (hlinks : c.ext4.inodeOnDisk.linksCount ≠ 0) : ∃ s' f' taken rest', rest = taken ++ rest' ∧
      s.getdentsCall lib fid 4096 = some (s', .ok ((dirents 0 taken).length,
        (dirents 0 taken).map UInt8.ofBitVec)) ∧
      Passed s' fid f' { c with ext4 := ino } (before ++ taken) rest' ino ∧
      (dirents 0 taken).length ≤ 240 ∧
      ∀ r ∈ rest'.head?, r.live ∧ 240 < (dirents 0 taken).length + r.direntLen := by
  obtain ⟨taken, rest', hsplit, hget, hle, hhead⟩ := @Ext4.Ext4Inode.getdents_of_readsFrom c.ext4 ino
    s.vfs.volume.fs before rest 240 h.reads hlinks
  have hmount : s.vfs.getdents f.dentry f.pos 240 = some (s.vfs.setExt4 f.dentry ino,
      some ((contents (before ++ taken)).length, (dirents 0 taken).map UInt8.ofBitVec)) := by
    rw [Mount.getdents, h.inode, h.pos]
    dsimp only
    rw [hget, Ext4.contents_append, List.length_append]
    rfl
  have hcall := @getdentsCall_eq lib s (s.vfs.setExt4 f.dentry ino) fid
    (contents (before ++ taken)).length f ((dirents 0 taken).map UInt8.ofBitVec) h.file h.isDir
    hmount (by rwa [List.length_map])
  rw [List.length_map] at hcall
  refine ⟨_, { f with pos := (contents (before ++ taken)).length }, taken, rest', hsplit, hcall, ?_, hle,
    hhead⟩
  refine ⟨file_setFile h.file _ _, ?_, ?_, rfl, ?_⟩
  · -- the flags of the entry stay
    have hdir := h.isDir
    change (s.vfs.setExt4 f.dentry ino).isDir f.dentry = true
    unfold Mount.isDir Mount.setExt4 at *
    rw [Mount.dentries_modify, if_pos rfl]
    cases hd : s.vfs.dentries f.dentry with
    | none =>
      rw [hd] at hdir
      cases hdir
    | some D =>
      rw [hd] at hdir
      exact hdir
  · change (s.vfs.setExt4 f.dentry ino).inodeAt f.dentry = _
    rw [Mount.inodeAt_setExt4, if_pos rfl, h.inode, Option.map_some]
  · exact h.reads.again (by rw [hsplit, List.append_assoc])

end Calls

/-! ## All calls -/

section Listing

variable {lib : Library} {s : FsServer Mount ℕ} {fid : ℕ} {f : File ℕ} {c : CachedInode}
  {before rest rs : List DirRecord} {ino : Ext4.Ext4Inode} {r : DirRecord}

/-- The records in front of the first one in use that is too long for an answer. -/
def reachable (rs : List DirRecord) : List DirRecord :=
  rs.takeWhile fun r => !r.live || decide (r.direntLen ≤ 240)

theorem direntLen_le_of_mem {off : ℕ} (hr : r ∈ rs) (hlive : r.live = true) :
    r.direntLen ≤ (dirents off rs).length := by
  induction rs generalizing off with
  | nil => cases hr
  | cons q rs ih =>
    rw [dirents, List.length_append]
    rcases List.mem_cons.mp hr with rfl | hmem
    · rw [if_pos hlive, Ext4.length_linuxDirent]
      exact Nat.le_add_right ..
    · exact (ih hmem).trans (Nat.le_add_left ..)

/-- Records that fit into one answer are all reachable. -/
theorem reachable_append (h : (dirents 0 rs).length ≤ 240) :
    reachable (rs ++ rest) = rs ++ reachable rest := by
  unfold reachable
  refine List.takeWhile_append_of_pos fun r hr => ?_
  cases hlive : r.live with
  | false => rfl
  | true =>
    have := @direntLen_le_of_mem rs r 0 hr hlive
    simp only [Bool.not_true, Bool.false_or, decide_eq_true_eq]
    omega

/-- **The listing ends**, with the records in use that are reachable.  Every call that returns
something passes over a record, so the records that are left become fewer. -/
theorem lists_of_passed (h : Passed s fid f c before rest ino)
    (hlinks : c.ext4.inodeOnDisk.linksCount ≠ 0) :
    Lists lib fid s (parsed (reachable rest)) := by
  induction hn : rest.length using Nat.strong_induction_on generalizing s f c before rest with
  | h n ih =>
    obtain ⟨s', f', taken, rest', hsplit, hcall, hpassed, hle, hhead⟩ := h.call lib hlinks
    rw [hsplit, reachable_append hle, parsed_append]
    by_cases hzero : (dirents 0 taken).length = 0
    · -- nothing fits, not even into an empty answer
      have hnone : parsed taken = [] := by
        have := @length_parsed_le taken 0
        exact List.eq_nil_of_length_eq_zero (by omega)
      have hstop : reachable rest' = [] := by
        cases rest' with
        | nil => rfl
        | cons r rest' =>
          obtain ⟨hlive, hlong⟩ := hhead r rfl
          unfold reachable
          rw [List.takeWhile_cons_of_neg]
          simp only [hlive, Bool.not_true, Bool.false_or, decide_eq_true_eq]
          omega
      refine ⟨1, [], ?_, ?_⟩
      · rw [listing, hcall]
        dsimp only
        rw [if_pos hzero]
      · rw [hnone, hstop]
        rfl
    · have hlen := congrArg List.length hsplit
      have hne : taken ≠ [] := by
        rintro rfl
        exact hzero rfl
      have hpos := List.length_pos_iff.mpr hne
      rw [List.length_append] at hlen
      have hsame : ino.inodeOnDisk.linksCount ≠ 0 := by
        rw [h.reads.inodeOnDisk]
        exact hlinks
      obtain ⟨rounds, ds, hds, hshown⟩ := ih rest'.length (by omega) hpassed hsame rfl
      obtain ⟨es, hes, hparsed⟩ := @parseDirents_dirents taken 0
      refine ⟨rounds + 1, es ++ ds, ?_, ?_⟩
      · rw [listing, hcall]
        dsimp only
        rw [if_neg hzero, List.take_of_length_le (by rw [List.length_map]), hes, hds]
        rfl
      · rw [List.map_append, hparsed, hshown]

/-- A client that calls once more gets the same entries. -/
theorem listing_unique {rounds rounds' : ℕ} {ds ds' : List Dirent}
    (h : listing lib fid rounds s = some ds) (h' : listing lib fid rounds' s = some ds') :
    ds = ds' := by
  induction rounds generalizing rounds' s ds ds' with
  | zero => cases h
  | succ rounds ih =>
    cases rounds' with
    | zero => cases h'
    | succ rounds' =>
      rw [listing] at h h'
      split at h
      · split at h
        · rename_i hcall hn
          rw [hcall] at h'
          dsimp only at h'
          rw [if_pos hn] at h'
          cases h
          cases h'
          rfl
        · rename_i hcall hn
          rw [hcall] at h'
          dsimp only at h'
          rw [if_neg hn] at h'
          obtain ⟨es, hes, h⟩ := Option.bind_eq_some_iff.mp h
          obtain ⟨rest, hrest, h⟩ := Option.bind_eq_some_iff.mp h
          obtain ⟨es', hes', h'⟩ := Option.bind_eq_some_iff.mp h'
          obtain ⟨rest', hrest', h'⟩ := Option.bind_eq_some_iff.mp h'
          cases h
          cases h'
          rw [hes] at hes'
          cases hes'
          rw [ih hrest hrest']
      · cases h

/-- A file is opened at its start. -/
theorem file_of_openFile {s' : FsServer Mount ℕ} {path : String} {flags : UInt8}
    (h : s.openFile Mount.vfs 0 path flags = some (s', .ok fid)) :
    ∃ d, s'.file 0 fid = some ⟨d, 0, flags⟩ := by
  rcases openFile_cases Mount.vfs h with ⟨e, -, hr, -⟩ | ⟨d, fd, -, hr, -, -, hfile⟩ | ⟨m, d, -, -, hr, -⟩
  · cases hr
  · cases hr
    exact ⟨d, by rw [hfile, Function.update_self]⟩
  · cases hr

/-- A name without a zero byte is listed as it is. -/
theorem cut_listed : cut (listed r) = listed r ↔ 0 ∉ r.entry.name := by
  have hmem : (0 : UInt8) ∈ r.entry.name.map UInt8.ofBitVec ↔ 0 ∈ r.entry.name := by
    rw [List.mem_map]
    constructor
    · rintro ⟨b, hb, heq⟩
      obtain rfl : b = 0 := congrArg UInt8.toBitVec heq
      exact hb
    · exact fun h => ⟨0, h, rfl⟩
  rw [← hmem]
  constructor
  · intro h
    have hname : untilNul (r.entry.name.map UInt8.ofBitVec) = r.entry.name.map UInt8.ofBitVec :=
      congrArg (fun e => e.2.2) h
    rw [← hname]
    exact zero_not_mem_untilNul _
  · intro h
    have hname := @untilNul_pad _ 0 h
    rw [List.replicate_zero, List.append_nil] at hname
    unfold cut listed
    rw [hname]

/-- What is reachable is everything. -/
theorem parsed_reachable_iff : parsed (reachable rs) = (rs.filter DirRecord.live).map listed ↔
    ∀ r ∈ rs, r.live = true → r.entry.name.length ≤ 220 ∧ 0 ∉ r.entry.name := by
  induction rs with
  | nil => simp [reachable, parsed]
  | cons r rs ih =>
    rw [List.forall_mem_cons, ← ih]
    cases hlive : r.live with
    | false =>
      have hgo : reachable (r :: rs) = r :: reachable rs :=
        List.takeWhile_cons_of_pos (by simp [hlive])
      rw [hgo, parsed_cons_of_dead hlive, List.filter_cons_of_neg (by simp [hlive])]
      simp
    | true =>
      rw [List.filter_cons_of_pos hlive, List.map_cons]
      have hlong : r.direntLen ≤ 240 ↔ r.entry.name.length ≤ 220 := by
        unfold DirRecord.direntLen
        omega
      by_cases hshort : r.direntLen ≤ 240
      · have hgo : reachable (r :: rs) = r :: reachable rs :=
          List.takeWhile_cons_of_pos (by simp [hshort])
        rw [hgo, parsed_cons_of_live hlive, List.cons.injEq, cut_listed]
        simp [hlong.mp hshort]
      · have hstop : reachable (r :: rs) = [] :=
          List.takeWhile_cons_of_neg (by simp [hlive, hshort])
        rw [hstop]
        constructor
        · intro h
          cases h
        · rintro ⟨h, -⟩
          exact absurd (hlong.mpr (h rfl).1) hshort

/-- The listing of a directory that was just opened. -/
theorem lists_of_directory {s' : FsServer Mount ℕ} {path : String} {flags : UInt8}
    (hopen : s.openFile Mount.vfs 0 path flags = some (s', .ok fid))
    (hfile : s'.file 0 fid = some f) (hdir : s'.vfs.isDir f.dentry = true)
    (hinode : s'.vfs.inodeAt f.dentry = some c)
    (hrs : c.ext4.Directory s'.vfs.volume.fs rs) :
    Lists lib fid s' (if c.ext4.inodeOnDisk.linksCount = 0 then [] else parsed (reachable rs)) := by
  obtain ⟨d, hd⟩ := file_of_openFile hopen
  have hpos : f.pos = 0 := by
    rw [hfile] at hd
    cases hd
    rfl
  split
  · -- an inode without links lists nothing
    rename_i hlinks
    have hget : s'.vfs.getdents f.dentry f.pos 240 =
        some (s'.vfs.setExt4 f.dentry c.ext4, some (0, [])) := by
      rw [Mount.getdents, hinode]
      dsimp only
      rw [Ext4.Ext4Inode.getdents, if_pos hlinks]
      rfl
    refine ⟨1, [], ?_, rfl⟩
    rw [listing, getdentsCall_eq hfile hdir hget (Nat.zero_le _)]
    rfl
  · rename_i hlinks
    obtain ⟨ino, hreads⟩ := hrs.readsFrom
    exact @lists_of_passed lib s' fid f c [] rs ino ⟨hfile, hdir, hinode, hpos, hreads⟩ hlinks

/-- **A listing is complete** exactly when every name in use is at most 220 bytes long and has no
zero byte in it, and the directory has links or nothing in it. -/
theorem listing_iff (lib : Library) {s' : FsServer Mount ℕ} {path : String} {flags : UInt8}
    (hopen : s.openFile Mount.vfs 0 path flags = some (s', .ok fid))
    (hfile : s'.file 0 fid = some f) (hdir : s'.vfs.isDir f.dentry = true)
    (hinode : s'.vfs.inodeAt f.dentry = some c)
    (hrs : c.ext4.Directory s'.vfs.volume.fs rs) :
    Lists lib fid s' ((rs.filter DirRecord.live).map listed) ↔
      (c.ext4.inodeOnDisk.linksCount ≠ 0 ∨ ∀ r ∈ rs, r.live = false) ∧
        ∀ r ∈ rs, r.live = true → r.entry.name.length ≤ 220 ∧ 0 ∉ r.entry.name := by
  obtain ⟨rounds, ds, hds, hshown⟩ := @lists_of_directory lib s fid f c rs s' path flags hopen hfile
    hdir hinode hrs
  have hunique : Lists lib fid s' ((rs.filter DirRecord.live).map listed) ↔
      ds.map Dirent.listed = (rs.filter DirRecord.live).map listed := by
    constructor
    · rintro ⟨rounds', ds', hds', hshown'⟩
      rw [listing_unique hds hds', hshown']
    · exact fun h => ⟨rounds, ds, hds, h⟩
  rw [hunique, hshown]
  split
  · rename_i hlinks
    rw [eq_comm, List.map_eq_nil_iff, List.filter_eq_nil_iff]
    simp only [hlinks, ne_eq, not_true_eq_false, false_or, Bool.not_eq_true]
    refine ⟨fun h => ⟨h, fun r hr hlive => ?_⟩, fun h => h.1⟩
    rw [h r hr] at hlive
    cases hlive
  · rename_i hlinks
    rw [parsed_reachable_iff]
    simp [hlinks]

end Listing

/-! ## A directory of one block -/

section OneBlock

/-- The directory `/`, with its page in the cache. -/
def cachedRoot (block : List (BitVec 8)) : CachedInode where
  ext4 := {
    inodeNum := 2
    inodeOnDisk := oneFileFs.inodeTable 2
    pages := ({} : Std.TreeMap ℕ Ext4.Page).insert 0 ⟨Ext4.toBuffer block, false⟩
    seals := 1 }
  attr := ⟨0x41ED, 0⟩
  link := none

/-- A server with such a directory `/`, and nothing open. -/
def cachedServer (block : List (BitVec 8)) : FsServer Mount ℕ where
  vfs := {
    volume := { oneFileVolume with fs := { oneFileFs with
      device := fun a => if a / 4096 = 10 then block.getD (a % 4096) 0 else 0 } }
    attrs := fun n => ⟨if n = 2 then 0x41ED else 0x81A4, 0⟩
    checksumSeed := 0
    dentries := Function.update (fun _ => none) 0
      (some ⟨['/'], none, fun _ => none, .directory, some (cachedRoot block), 1⟩)
    nextDentry := 1
    root := 0 }
  fdTables := fun _ => none

theorem opened_root (block : List (BitVec 8)) : ∃ s',
    (cachedServer block).openFile Mount.vfs 0 "/" 0 = some (s', .ok 0) ∧
      s'.file 0 0 = some ⟨0, 0, 0⟩ ∧ s'.vfs.isDir 0 = true ∧
      s'.vfs.inodeAt 0 = some (cachedRoot block) := by
  -- the path has no components, so that the walk ends where it starts
  let m := ((cachedServer block).vfs.clone 0).clone 0
  let m' := m.modify 0 fun D => { D with strong := D.strong - 1 }
  have hcomponents : components "/".toList = [] := by decide
  have hwalk : (cachedServer block).vfs.pathWalk "/".toList = some (m, .ok (0, 0)) := by
    rw [Mount.pathWalk, hcomponents]
    rfl
  have hrelease : m.release 0 = some m' := rfl
  have hnegative : m'.isNegative 0 = false := by
    change DentryFlags.directory.contains .negative = false
    decide
  have hopen : (cachedServer block).vfs.openPath "/".toList 0 = some (m', .ok 0) := by
    simp only [Mount.openPath, hwalk, hrelease, hnegative, Option.bind_eq_bind, Option.bind_some,
      Bool.false_eq_true, false_and, if_false]
    rfl
  refine ⟨⟨m', Function.update (fun _ => none) 0
    (some (Function.update (fun _ => none) 0 (some ⟨0, 0, 0⟩)))⟩, ?_, rfl, ?_, rfl⟩
  · rw [openFile]
    change ((cachedServer block).vfs.openPath "/".toList 0).bind _ = _
    rw [hopen]
    rfl
  · change DentryFlags.directory.contains .directory = true
    decide

/-- The directory is read from its page. -/
theorem directory_cachedRoot {rs : List DirRecord} (hlen : (contents rs).length = 4096)
    (fs : Ext4.Ext4FileSystem) : (cachedRoot (contents rs)).ext4.Directory fs rs := by
  have hshows : (cachedRoot (contents rs)).ext4.Shows 0 (contents rs) := by
    refine ⟨?_, fun k hk => ?_⟩
    · rw [hlen]
      change 0 + 4096 ≤ 4096 % 2 ^ 32
      decide
    · rw [hlen] at hk
      have hdiv : (0 + k) / Ext4.pageSize = 0 := by
        unfold Ext4.pageSize
        omega
      have hmod : (0 + k) % Ext4.pageSize = k := by
        unfold Ext4.pageSize
        omega
      refine ⟨⟨Ext4.toBuffer (contents rs), false⟩, ?_, ?_⟩
      · rw [hdiv]
        simp [cachedRoot]
      · rw [hmod]
        exact List.getD_eq_getElem _ _ _
  have hread := @Ext4.Ext4Inode.read_of_shows _ fs _ _ hshows
  rw [hlen] at hread
  exact ⟨hlen, _, hread⟩

set_option maxRecDepth 20000

/-- The bytes of a record for inode `n` that ends `k` zeros behind its name. -/
def recordBytes (n : BitVec 8) (recLen : List (BitVec 8)) (name : List (BitVec 8)) (k : ℕ) :
    List (BitVec 8) :=
  [n, 0, 0, 0] ++ recLen ++ [BitVec.ofNat 8 name.length, 1] ++ name ++ List.replicate k 0

/-- Three names of 100 letters, and a free record between them. -/
def threeNames : List DirRecord := [
  ⟨recordBytes 12 [108, 0] (List.replicate 100 97) 0, ⟨12, 108, 100, 1, List.replicate 100 97⟩,
    by decide +kernel, by decide +kernel⟩,
  ⟨recordBytes 0 [12, 0] (List.replicate 4 98) 0, ⟨0, 12, 4, 1, List.replicate 4 98⟩,
    by decide +kernel, by decide +kernel⟩,
  ⟨recordBytes 13 [108, 0] (List.replicate 100 99) 0, ⟨13, 108, 100, 1, List.replicate 100 99⟩,
    by decide +kernel, by decide +kernel⟩,
  ⟨recordBytes 14 [28, 15] (List.replicate 100 100) 3760,
    ⟨14, 3868, 100, 1, List.replicate 100 100⟩, by decide +kernel, by decide +kernel⟩]

/-- The names are all listed, though they do not fit into one answer. -/
theorem listing_iff_threeNames : ∃ s',
    (cachedServer (contents threeNames)).openFile Mount.vfs 0 "/" 0 = some (s', .ok 0) ∧
      Lists .qlibc 0 s' ((threeNames.filter DirRecord.live).map listed) ∧
      (threeNames.filter DirRecord.live).length = 3 ∧ 240 < (dirents 0 threeNames).length := by
  obtain ⟨s', hopen, hfile, hdir, hinode⟩ := opened_root (contents threeNames)
  have hlen : (contents threeNames).length = 4096 ∧ (threeNames.filter DirRecord.live).length = 3 ∧
      240 < (dirents 0 threeNames).length ∧ ∀ r ∈ threeNames, r.live = true →
        r.entry.name.length ≤ 220 ∧ 0 ∉ r.entry.name := by
    decide +kernel
  obtain ⟨hlen, hlive, hlong, hnames⟩ := hlen
  have hlinks : (cachedRoot (contents threeNames)).ext4.inodeOnDisk.linksCount ≠ 0 := by
    change (2 : UInt16) ≠ 0
    decide
  exact ⟨s', hopen, (listing_iff .qlibc hopen hfile hdir hinode (directory_cachedRoot hlen _)).mpr
    ⟨Or.inl hlinks, hnames⟩, hlive, hlong⟩

/-- A record with a name of 221 letters, which fills its block. -/
def longName : DirRecord where
  bytes := recordBytes 12 [0, 16] (List.replicate 221 97) 3867
  entry := ⟨12, 4096, 221, 1, List.replicate 221 97⟩
  parsed := by decide +kernel
  covers := by decide +kernel

/-- **A name of 221 letters** needs more than the 240 bytes of an answer: the listing of its
directory is empty. -/
theorem longName_not_listed : ∃ s',
    (cachedServer (contents [longName])).openFile Mount.vfs 0 "/" 0 = some (s', .ok 0) ∧
      s'.file 0 0 = some ⟨0, 0, 0⟩ ∧ s'.vfs.isDir 0 = true ∧
      s'.vfs.inodeAt 0 = some (cachedRoot (contents [longName])) ∧
      (cachedRoot (contents [longName])).ext4.Directory s'.vfs.volume.fs [longName] ∧
      ¬ Lists .qlibc 0 s' (([longName].filter DirRecord.live).map listed) := by
  obtain ⟨s', hopen, hfile, hdir, hinode⟩ := opened_root (contents [longName])
  have hrs := @directory_cachedRoot [longName] (by decide +kernel) s'.vfs.volume.fs
  refine ⟨s', hopen, hfile, hdir, hinode, hrs, ?_⟩
  obtain ⟨rounds, ds, hds, hshown⟩ := @lists_of_directory .qlibc _ 0 _ _ _ s' _ _ hopen hfile hdir
    hinode hrs
  have hlive : longName.live = true := by decide
  have hlong : ¬ longName.direntLen ≤ 240 := by decide
  have hstop : reachable [longName] = [] :=
    List.takeWhile_cons_of_neg (by simp [hlive, hlong])
  have hnil : ds = [] := by
    rw [hstop, if_neg (by decide)] at hshown
    exact List.map_eq_nil_iff.mp hshown
  rintro ⟨rounds', ds', hds', hshown'⟩
  obtain rfl : ds = ds' := listing_unique hds hds'
  rw [hnil, List.filter_cons_of_pos hlive] at hshown'
  cases hshown'

end OneBlock

end FsServer

end QuackOS.Fs
