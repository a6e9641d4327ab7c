import QuackOS.Fs.Isolation
import QuackOS.Lib.Run
import QuackOS.Linux.Files

/-!
# Server files behind descriptors

One Linux task is the only client of the file server.  A descriptor holds the identifier that
`fs_open` returned; several descriptors may hold the same one, and nothing counts them.

* `HandleCall`, `handleStep` — the calls, and what they do to the task and the server;
* `Live` — the files open on the server are those some descriptor refers to;
* `handles_live` — **this holds in every state of a run that closes a file only through its last
  descriptor and overwrites no last descriptor by `sys_dup3`**;
* `dup_close_dangles` — a run that does not.
-/

namespace QuackOS.Linux

open Bytes Slice Fs

/-! ## Calls to the server -/

section Server

variable {σ δ : Type} (V : Vfs σ δ)

/-- How `fs_open` reads the response. -/
def openReply (resp : List UInt8) : Except ℤ FsFid :=
  if resp.take 8 = List.replicate 8 0 then .ok (wordAt resp 8 8)
  else .error (-(wordAt resp 0 8).toInt)

/-- `fs_open`, with the server that answers it. -/
def fsOpen (srv : FsServer σ δ) (path : String) : Option (FsServer σ δ × Except ℤ FsFid) := do
  let req ← Liblinux.fsOpen path
  let (srv, resp) ← srv.dispatch V req
  return (srv, openReply resp)

/-- `fs_close`; the callers do not look at the result. -/
def fsClose (srv : FsServer σ δ) (fid : FsFid) : Option (FsServer σ δ) := do
  let req ← Liblinux.fsClose fid
  let (srv, _) ← srv.dispatch V req
  return srv

/-- The path that `sys_openat` reads from user memory. -/
def pathAt (mem : Mem) (pathPtr : Word) : String :=
  (fromUtf8 (untilNul (copyFrom mem pathPtr 256))).getD "/"

/-- The calls that make, copy and drop descriptors of files. -/
inductive HandleCall
  | openat (pathPtr flags : Word)
  | close (fd : ℕ)
  | dup (oldfd : ℕ)
  | dup3 (oldfd newfd : ℕ)
  | fcntl (fd cmd arg : ℕ)

/-- A task, user memory and the server. -/
structure System (σ δ : Type) where
  task : TaskStruct
  mem : Mem
  srv : FsServer σ δ

/-- What remains to be done on the server after a call. -/
def finish (srv : FsServer σ δ) (o : Outcome) (closes : Option FsFid) : Option (System σ δ) :=
  match closes with
  | none => some ⟨o.task, o.mem, srv⟩
  | some fid => (fsClose V srv fid).map fun srv => ⟨o.task, o.mem, srv⟩

/-- What a call does; `none` is a panic of the task or of the server. -/
def HandleCall.run (s : System σ δ) : HandleCall → Option (System σ δ)
  | .openat pathPtr flags => do
    let (srv, opened) ← fsOpen V s.srv (pathAt s.mem pathPtr)
    let (o, closes) := sysOpenat s.task s.mem flags opened
    finish V srv o closes
  | .close fd =>
    match sysClose s.task s.mem fd with
    | .ok (o, closes) => finish V s.srv o closes
    | .error _ => none
  | .dup oldfd => finish V s.srv (sysDup s.task s.mem oldfd) none
  | .dup3 oldfd newfd => finish V s.srv (sysDup3 s.task s.mem oldfd newfd) none
  | .fcntl fd cmd arg => finish V s.srv (sysFcntl s.task s.mem fd cmd arg) none

/-- One call of a run; nothing follows a panic. -/
def handleStep (s : Option (System σ δ)) (c : HandleCall) : Option (System σ δ) :=
  s.bind fun s => c.run V s

end Server

/-- **The files open on the server are those some descriptor refers to.** -/
def Live {σ δ : Type} (s : System σ δ) : Prop :=
  ∀ fid : FsFid, (s.srv.file 0 fid.toNat).isSome ↔ 0 < s.task.fdTable.refs (.file fid)

/-- A file is closed through its last descriptor only, and `sys_dup3` does not overwrite the last
descriptor of a file. -/
def KeepsHandles (t : TaskStruct) : HandleCall → Prop
  | .close fd => ∀ fid, t.fdTable.get fd = some (.file fid) → t.fdTable.refs (.file fid) = 1
  | .dup3 oldfd newfd => ∀ k fid, oldfd ≠ newfd → t.fdTable.get oldfd = some k →
    t.fdTable.get newfd = some (.file fid) → k = .file fid ∨ 2 ≤ t.fdTable.refs (.file fid)
  | _ => True

/-! ## What the server does -/

section Server

variable {σ δ : Type} {V : Vfs σ δ} {srv srv' : FsServer σ δ} {fid : FsFid} {path : String}

theorem file_setFile_self {pid fd : ℕ} {f : Option (File δ)} (h : (srv.file pid fd).isSome) :
    (srv.setFile pid fd f).file pid fd = f := by
  unfold FsServer.file FsServer.setFile at *
  cases ht : srv.fdTables pid with
  | none => simp [ht] at h
  | some table =>
    have hlt : fd < fdTableSize := by
      by_contra hge
      simp [ht, FdTable.getFile, hge] at h
    simp [FdTable.getFile, hlt]

theorem file_setFile_of_ne {pid fd fd' : ℕ} {f : Option (File δ)} (h : fd' ≠ fd) :
    (srv.setFile pid fd f).file pid fd' = srv.file pid fd' := by
  unfold FsServer.file FsServer.setFile
  cases ht : srv.fdTables pid with
  | none => simp
  | some table => simp [FdTable.getFile, Function.update_of_ne h]

/-- `fs_close` closes the file and no other. -/
theorem file_fsClose (h : fsClose V srv fid = some srv') (x : FsFid) :
    srv'.file 0 x.toNat = if x = fid then none else srv.file 0 x.toNat := by
  simp only [fsClose, Liblinux.fsClose, fidRequest_eq, Option.bind_eq_bind, Option.bind_some,
    FsServer.dispatch, decode_fid.1, Option.bind_eq_some_iff] at h
  obtain ⟨⟨srv₁, resp⟩, hserve, heq⟩ := h
  cases heq
  cases hfile : srv.file 0 fid.toNat with
  | none =>
    obtain ⟨resp', hsame⟩ := @FsServer.serve_of_not_open _ _ V srv (.close fid) fid rfl hfile
    rw [hsame] at hserve
    cases hserve
    split
    · rename_i hx
      rw [hx, hfile]
    · rfl
  | some f =>
    simp only [FsServer.serve, FsServer.close, hfile, Option.bind_eq_bind,
      Option.bind_eq_some_iff] at hserve
    obtain ⟨r, ⟨vfs, -, hr⟩, hresp⟩ := hserve
    cases hr
    simp only [FsServer.respond, Option.map_eq_some_iff] at hresp
    obtain ⟨_, -, heq⟩ := hresp
    cases heq
    split
    · rename_i hx
      subst hx
      have hopen : ({ srv with vfs } : FsServer σ δ).file 0 x.toNat = some f := hfile
      exact file_setFile_self (by rw [hopen]; rfl)
    · rename_i hx
      have hne : x.toNat ≠ fid.toNat := fun heq => hx (BitVec.eq_of_toNat_eq heq)
      exact file_setFile_of_ne hne

/-- An error of the server is an error of `fs_open`. -/
theorem openReply_error (e : Fs.Errno) (pad : List UInt8) :
    ∃ err, openReply (leBytes 8 (BitVec.ofInt 64 (-e.code)) ++ pad) = .error err := by
  have htake : (leBytes 8 (BitVec.ofInt 64 (-e.code)) ++ pad).take 8 =
      leBytes 8 (BitVec.ofInt 64 (-e.code)) := by
    rw [List.take_append_of_le_length (by simp), List.take_of_length_le (by simp)]
  have hne : leBytes 8 (BitVec.ofInt 64 (-e.code)) ≠ List.replicate 8 0 := by
    cases e <;> decide
  rw [openReply, htake, if_neg hne]
  exact ⟨_, rfl⟩

theorem openReply_ok (n : BitVec 64) (pad : List UInt8) :
    openReply (leBytes 8 0 ++ leBytes 8 n ++ pad) = .ok n := by
  have htake : (leBytes 8 0 ++ leBytes 8 n ++ pad).take 8 = List.replicate 8 0 := by
    rw [List.append_assoc, List.take_append_of_le_length (by simp),
      List.take_of_length_le (by simp)]
    decide
  rw [openReply, htake, if_pos rfl, wordAt_append (by simp) n.isLt]

/-- A free descriptor of the server's table is taken. -/
theorem allocFd_eq_some {table table' : Fs.FdTable δ} {f : File δ} {fd : ℕ}
    (h : table.allocFd f = some (fd, table')) :
    fd < fdTableSize ∧ table fd = none ∧ table' = Function.update table fd (some f) := by
  obtain ⟨i, hi, heq⟩ := Option.map_eq_some_iff.mp h
  cases heq
  obtain ⟨hnone, hlt, -⟩ := Slots.firstFree_eq_some.mp hi
  exact ⟨hlt, hnone, rfl⟩

/-- The table of process 0, empty before the first file is opened. -/
theorem file_eq_getD (x : ℕ) :
    srv.file 0 x = Fs.FdTable.getFile ((srv.fdTables 0).getD fun _ => none) x := by
  unfold FsServer.file
  cases srv.fdTables 0 with
  | none => simp [FdTable.getFile]
  | some table => rfl

/-- `open` takes a free descriptor, or leaves the files as they are. -/
theorem openFile_cases {flags : UInt8} {r : Except Fs.Errno ℕ}
    (h : srv.openFile V 0 path flags = some (srv', r)) :
    (∃ e, r = .error e ∧ ∀ x, srv'.file 0 x = srv.file 0 x) ∨
    ∃ fd < fdTableSize, r = .ok fd ∧ srv.file 0 fd = none ∧ (srv'.file 0 fd).isSome ∧
      ∀ x, x ≠ fd → srv'.file 0 x = srv.file 0 x := by
  unfold FsServer.openFile at h
  obtain ⟨⟨vfs, d⟩, -, h⟩ := Option.bind_eq_some_iff.mp h
  cases d with
  | error e =>
    cases h
    exact .inl ⟨e, rfl, fun _ => rfl⟩
  | ok d =>
    dsimp only at h
    have hnew : ∀ (vfs : σ) (table : Fs.FdTable δ) x, FsServer.file
        ⟨vfs, Function.update srv.fdTables 0 (some table)⟩ 0 x = table.getFile x := by
      intro vfs table x
      simp [FsServer.file]
    cases ha : Fs.FdTable.allocFd ((srv.fdTables 0).getD fun _ => none) ⟨d, 0, flags⟩ with
    | none =>
      rw [ha] at h
      obtain ⟨vfs', -, heq⟩ := Option.bind_eq_some_iff.mp h
      cases heq
      exact .inl ⟨_, rfl, fun x => (hnew ..).trans (file_eq_getD x).symm⟩
    | some p =>
      obtain ⟨fd, table⟩ := p
      rw [ha] at h
      cases h
      obtain ⟨hlt, hnone, rfl⟩ := allocFd_eq_some ha
      refine .inr ⟨fd, hlt, rfl, ?_, ?_, ?_⟩
      · rw [file_eq_getD, Fs.FdTable.getFile, if_pos hlt, hnone]
      · rw [hnew, Fs.FdTable.getFile, if_pos hlt, Function.update_self]
        rfl
      · intro x hx
        rw [hnew, file_eq_getD x, Fs.FdTable.getFile, Fs.FdTable.getFile, Function.update_of_ne hx]

/-- The server answers `fs_open` with the outcome of `open`. -/
theorem fsOpen_eq {r : Except ℤ FsFid} (h : fsOpen V srv path = some (srv', r)) :
    ∃ path' res, srv.openFile V 0 path' 0 = some (srv', res) ∧
      ((∃ e err, res = .error e ∧ r = .error err) ∨
        ∃ fd, res = .ok fd ∧ r = .ok (BitVec.ofNat 64 fd)) := by
  obtain ⟨bs, hreq⟩ := @pathRequest_shape .openFile [0] path (by simp)
  have hdec : decode (Op.openFile.byte :: ([0] ++ bs)) = some (.openFile 0 (pathOf "/" bs)) := by
    have hs := @sliceFrom_append _ [Op.openFile.byte, 0] bs 2 rfl
    simp only [List.cons_append, List.nil_append] at hs ⊢
    simp only [decode, Op.ofByte_byte, hs, Option.map_some]
    rfl
  simp only [fsOpen, Liblinux.fsOpen, hreq, Option.bind_eq_bind, Option.bind_some,
    FsServer.dispatch, hdec, FsServer.serve, Option.bind_eq_some_iff] at h
  obtain ⟨⟨srv₁, resp⟩, ⟨⟨srv₂, res⟩, hopen, hresp⟩, heq⟩ := h
  cases heq
  cases res with
  | error e =>
    simp only [FsServer.respond, FsServer.errResponse_eq, Option.map_some] at hresp
    cases hresp
    obtain ⟨err, herr⟩ := openReply_error e (List.replicate 248 0)
    exact ⟨pathOf "/" bs, .error e, hopen, .inl ⟨e, err, rfl, herr⟩⟩
  | ok fd =>
    have hok := @FsServer.okResponse_eq (BitVec.ofNat 64 fd) [] (by simp)
    simp only [FsServer.respond, hok, Option.map_some, List.append_nil] at hresp
    cases hresp
    exact ⟨pathOf "/" bs, .ok fd, hopen, .inr ⟨fd, rfl, openReply_ok _ _⟩⟩

/-- **`fs_open` opens a file behind an identifier that was free, or changes nothing.** -/
theorem fsOpen_cases {r : Except ℤ FsFid} (h : fsOpen V srv path = some (srv', r)) :
    (∃ e, r = .error e ∧ ∀ x, srv'.file 0 x = srv.file 0 x) ∨
    ∃ fid : FsFid, r = .ok fid ∧ srv.file 0 fid.toNat = none ∧ (srv'.file 0 fid.toNat).isSome ∧
      ∀ x, x ≠ fid.toNat → srv'.file 0 x = srv.file 0 x := by
  obtain ⟨path', res, hopen, hr⟩ := fsOpen_eq h
  rcases openFile_cases hopen with ⟨e, rfl, hsame⟩ | ⟨fd, hlt, rfl, hnone, hsome, hsame⟩
  · rcases hr with ⟨e, err, -, rfl⟩ | ⟨fd, hfd, -⟩
    · exact .inl ⟨err, rfl, hsame⟩
    · cases hfd
  · rcases hr with ⟨e, err, he, -⟩ | ⟨fd', hfd, rfl⟩
    · cases he
    · cases hfd
      have hnat : (BitVec.ofNat 64 fd).toNat = fd := by
        rw [BitVec.toNat_ofNat, Nat.mod_eq_of_lt]
        exact hlt.trans (by decide)
      refine .inr ⟨BitVec.ofNat 64 fd, rfl, ?_⟩
      rw [hnat]
      exact ⟨hnone, hsome, hsame⟩

end Server

/-! ## What a call keeps -/

section Steps

open FdTable

variable {σ δ : Type} {V : Vfs σ δ} {s s' : System σ δ} {t : TaskStruct} {m : Mem}
  {srv : FsServer σ δ} {fid : FsFid} {fd : ℕ}

/-- The files behind descriptors that stay are the same. -/
def SameFiles (s s' : System σ δ) : Prop :=
  ∀ fid : FsFid, 0 < s.task.fdTable.refs (.file fid) → 0 < s'.task.fdTable.refs (.file fid) →
    s'.srv.file 0 fid.toNat = s.srv.file 0 fid.toNat

/-- A call that leaves the server alone and no file without a descriptor. -/
theorem live_of_refs (h : Live s) (hsrv : s'.srv = s.srv)
    (hr : ∀ fid, 0 < s'.task.fdTable.refs (.file fid) ↔ 0 < s.task.fdTable.refs (.file fid)) :
    Live s' ∧ SameFiles s s' := by
  constructor
  · intro fid
    rw [hsrv, hr]
    exact h fid
  · intro fid _ _
    rw [hsrv]

/-- A descriptor copied from another one. -/
theorem refs_copy {table table' : FdTable} {k : FdKind} {flags : BitVec 32} {newfd : ℕ}
    (ha : table.allocKind k flags = some (newfd, table')) (hk : ∀ fid, k = .file fid →
      0 < table.refs (.file fid)) (fid : FsFid) :
    0 < table'.refs (.file fid) ↔ 0 < table.refs (.file fid) := by
  rw [refs_allocKind (k := .file fid) ha nofun]
  split
  · rename_i heq
    have := hk fid heq
    omega
  · rw [Nat.add_zero]

theorem refs_pos_of_get {table : FdTable} (h : table.get fd = some (.file fid)) :
    0 < table.refs (.file fid) := by
  obtain ⟨hlt, hkind, -⟩ := get_eq_some.mp h
  exact refs_pos.mpr ⟨fd, hlt, hkind⟩

theorem live_dup (h : Live s) (hrun : HandleCall.run V s (.dup fd) = some s') :
    Live s' ∧ SameFiles s s' := by
  cases hrun
  refine live_of_refs h rfl fun fid => ?_
  show 0 < (sysDup s.task s.mem fd).task.fdTable.refs _ ↔ _
  unfold sysDup
  split
  · exact Iff.rfl
  · rename_i k hk
    split
    · rename_i newfd table ha
      exact refs_copy ha (fun fid heq => refs_pos_of_get (heq ▸ hk)) fid
    · exact Iff.rfl

theorem live_fcntl (h : Live s) {cmd arg : ℕ} (hrun : HandleCall.run V s (.fcntl fd cmd arg) = some s') :
    Live s' ∧ SameFiles s s' := by
  cases hrun
  refine live_of_refs h rfl fun fid => ?_
  show 0 < (sysFcntl s.task s.mem fd cmd arg).task.fdTable.refs _ ↔ _
  unfold sysFcntl
  split
  · split
    · exact Iff.rfl
    · split
      · exact Iff.rfl
      · show 0 < FdTable.refs (((s.task.fdTable.allocKind (dupfdKind s.task.fdTable fd) 0).map
          Prod.snd).getD s.task.fdTable) _ ↔ _
        cases ha : s.task.fdTable.allocKind (dupfdKind s.task.fdTable fd) 0 with
        | none => exact Iff.rfl
        | some r =>
          refine refs_copy ha (fun fid heq => ?_) fid
          unfold dupfdKind FdTable.getFid at heq
          split at heq
          · rename_i fid' hfid
            cases heq
            split at hfid
            · cases hfid
              exact refs_pos_of_get ‹_›
            · cases hfid
          · cases heq
  · split
    · exact Iff.rfl
    · split
      · exact Iff.rfl
      · exact Iff.rfl

theorem live_dup3 (h : Live s) {newfd : ℕ} (hk : KeepsHandles s.task (.dup3 fd newfd))
    (hrun : HandleCall.run V s (.dup3 fd newfd) = some s') : Live s' ∧ SameFiles s s' := by
  cases hrun
  refine live_of_refs h rfl fun fid => ?_
  show 0 < (sysDup3 s.task s.mem fd newfd).task.fdTable.refs _ ↔ _
  unfold sysDup3
  split
  · exact Iff.rfl
  · rename_i hne
    split
    · exact Iff.rfl
    · rename_i k hold
      show 0 < FdTable.refs ((((s.task.fdTable.close newfd).2.allocKind k 0).map Prod.snd).getD
        (s.task.fdTable.close newfd).2) _ ↔ _
      cases hnew : s.task.fdTable.get newfd with
      | none =>
        have hclose : (s.task.fdTable.close newfd).2 = s.task.fdTable := by
          rw [FdTable.close, hnew]
        rw [hclose]
        cases ha : s.task.fdTable.allocKind k 0 with
        | none => exact Iff.rfl
        | some r => exact refs_copy ha (fun fid heq => refs_pos_of_get (heq ▸ hold)) fid
      | some k' =>
        have hclose : (s.task.fdTable.close newfd).2 =
            Function.update s.task.fdTable newfd ⟨.free, 0⟩ := by
          rw [FdTable.close, hnew]
        rw [hclose]
        -- the slot of `newfd` is free now, so the copy finds room
        obtain ⟨hlt, -, -⟩ := get_eq_some.mp hnew
        obtain ⟨⟨i, table⟩, ha⟩ := @allocKind_isSome (Function.update s.task.fdTable newfd ⟨.free, 0⟩)
          k newfd 0 hlt (by rw [Function.update_self])
        rw [ha]
        show 0 < table.refs _ ↔ _
        have hadd := refs_allocKind (k := .file fid) ha nofun
        have hdrop := refs_free (k := .file fid) hnew nofun
        by_cases hkold : k = .file fid
        · have := refs_pos_of_get (hkold ▸ hold)
          rw [if_pos hkold] at hadd
          split at hdrop <;> omega
        · rw [if_neg hkold] at hadd
          by_cases hknew : k' = .file fid
          · rcases hk k fid hne hold (hknew ▸ hnew) with heq | htwo
            · exact absurd heq hkold
            · rw [if_pos hknew] at hdrop
              omega
          · rw [if_neg hknew] at hdrop
            omega

theorem closePipe_fdTable {t' : TaskStruct} {idx : ℕ} {e : PipeEnd}
    (h : closePipe t idx e = .ok t') : t'.fdTable = t.fdTable := by
  obtain ⟨p, -, h⟩ := Run.bind_eq_ok.mp h
  cases p with
  | none =>
    cases h
    rfl
  | some p =>
    obtain ⟨p', -, h⟩ := Run.bind_eq_ok.mp h
    cases h
    rfl

/-- What `sys_close` leaves of the table, and the file it closes. -/
theorem sysClose_cases {o : Outcome} {closes : Option FsFid}
    (h : sysClose t m fd = .ok (o, closes)) :
    o.task.fdTable = (t.fdTable.closeKind fd).2 ∧ closes = t.fdTable.getFid fd := by
  unfold sysClose closeKind at h
  unfold closeKind FdTable.getFid
  cases hk : t.fdTable.get fd with
  | none =>
    rw [hk] at h
    cases h
    exact ⟨rfl, rfl⟩
  | some k =>
    rw [hk] at h
    cases k with
    | free | console | file fid =>
      cases h
      exact ⟨rfl, rfl⟩
    | pipeRead idx | pipeWrite idx =>
      obtain ⟨t', ht', h⟩ := Run.bind_eq_ok.mp h
      cases h
      exact ⟨closePipe_fdTable ht', rfl⟩

theorem live_close (h : Live s) (hk : KeepsHandles s.task (.close fd))
    (hrun : HandleCall.run V s (.close fd) = some s') : Live s' ∧ SameFiles s s' := by
  simp only [HandleCall.run] at hrun
  cases hc : sysClose s.task s.mem fd with
  | error e =>
    rw [hc] at hrun
    cases hrun
  | ok r =>
    obtain ⟨o, closes⟩ := r
    rw [hc] at hrun
    obtain ⟨htable, hcloses⟩ := sysClose_cases hc
    cases hget : s.task.fdTable.get fd with
    | none =>
      rw [FdTable.getFid, hget] at hcloses
      subst hcloses
      cases hrun
      rw [closeKind, hget] at htable
      refine live_of_refs h rfl fun fid => ?_
      show 0 < o.task.fdTable.refs _ ↔ _
      rw [htable]
    | some k =>
      rw [closeKind, hget] at htable
      rw [FdTable.getFid, hget] at hcloses
      have hdrop : ∀ x : FsFid, o.task.fdTable.refs (.file x) + (if k = .file x then 1 else 0) =
          s.task.fdTable.refs (.file x) := by
        intro x
        rw [htable]
        exact refs_free (k := .file x) hget nofun
      by_cases hfile : ∃ fid, k = .file fid
      · obtain ⟨fid, rfl⟩ := hfile
        subst hcloses
        simp only [finish, Option.map_eq_some_iff] at hrun
        obtain ⟨srv', hsrv, rfl⟩ := hrun
        have hone := hk fid hget
        constructor
        · intro x
          show (srv'.file 0 x.toNat).isSome ↔ 0 < o.task.fdTable.refs (.file x)
          have hx := hdrop x
          rw [file_fsClose hsrv x]
          by_cases heq : x = fid
          · subst heq
            rw [if_pos rfl] at hx
            rw [if_pos rfl]
            simp only [Option.isSome_none, Bool.false_eq_true, false_iff]
            omega
          · have hne : FdKind.file fid ≠ .file x := by
              intro hfid
              cases hfid
              exact heq rfl
            rw [if_neg hne, Nat.add_zero] at hx
            rw [if_neg heq, hx]
            exact h x
        · intro x _ hafter
          change 0 < o.task.fdTable.refs (.file x) at hafter
          show srv'.file 0 x.toNat = s.srv.file 0 x.toNat
          have hx := hdrop x
          rw [file_fsClose hsrv x, if_neg]
          rintro rfl
          rw [if_pos rfl] at hx
          omega
      · have hnone : closes = none := by
          rw [hcloses]
          split
          · exact absurd ⟨_, Option.some.inj ‹_›⟩ hfile
          · rfl
        subst hnone
        cases hrun
        refine live_of_refs h rfl fun x => ?_
        have hx := hdrop x
        rw [if_neg (fun heq => hfile ⟨x, heq⟩), Nat.add_zero] at hx
        show 0 < o.task.fdTable.refs _ ↔ _
        rw [hx]

theorem live_openat (h : Live s) {pathPtr flags : Word}
    (hrun : HandleCall.run V s (.openat pathPtr flags) = some s') : Live s' ∧ SameFiles s s' := by
  simp only [HandleCall.run, Option.bind_eq_bind, Option.bind_eq_some_iff] at hrun
  obtain ⟨⟨srv, opened⟩, hopen, hrun⟩ := hrun
  rcases fsOpen_cases hopen with ⟨e, rfl, hsame⟩ | ⟨fid, rfl, hnone, hsome, hsame⟩
  · cases hrun
    exact ⟨fun x => by rw [show srv.file 0 x.toNat = _ from hsame x.toNat]; exact h x,
      fun x _ _ => hsame x.toNat⟩
  · -- no descriptor refers to the new identifier yet
    have hfresh : s.task.fdTable.refs (.file fid) = 0 := by
      have := h fid
      rw [hnone] at this
      simpa using this
    cases ha : s.task.fdTable.allocFile fid (flags.setWidth 32) with
    | none =>
      simp only [sysOpenat, ha, finish, Option.map_eq_some_iff] at hrun
      obtain ⟨srv', hsrv, rfl⟩ := hrun
      have hfiles : ∀ x : FsFid, srv'.file 0 x.toNat = s.srv.file 0 x.toNat := by
        intro x
        rw [file_fsClose hsrv x]
        split
        · rename_i heq
          rw [heq, hnone]
        · rename_i hne
          exact hsame _ fun heq => hne (BitVec.eq_of_toNat_eq heq)
      exact ⟨fun x => by rw [show srv'.file 0 x.toNat = _ from hfiles x]; exact h x,
        fun x _ _ => hfiles x⟩
    | some r =>
      obtain ⟨newfd, table⟩ := r
      simp only [sysOpenat, ha] at hrun
      cases hrun
      have hadd : ∀ x : FsFid, table.refs (.file x) =
          s.task.fdTable.refs (.file x) + (if FdKind.file fid = .file x then 1 else 0) :=
        fun x => refs_allocKind (k := .file x) ha nofun
      constructor
      · intro x
        show (srv.file 0 x.toNat).isSome ↔ 0 < table.refs (.file x)
        rw [hadd x]
        by_cases heq : x = fid
        · subst heq
          rw [if_pos rfl]
          simp [hsome]
        · have hne : FdKind.file fid ≠ .file x := by
            intro hfid
            cases hfid
            exact heq rfl
          rw [if_neg hne, Nat.add_zero, hsame _ fun h => heq (BitVec.eq_of_toNat_eq h)]
          exact h x
      · intro x hbefore _
        refine hsame _ fun heq => ?_
        rw [BitVec.eq_of_toNat_eq heq, hfresh] at hbefore
        exact absurd hbefore (by omega)

/-- One call keeps the files of the descriptors. -/
theorem live_run (h : Live s) {c : HandleCall} (hk : KeepsHandles s.task c)
    (hrun : c.run V s = some s') : Live s' ∧ SameFiles s s' := by
  cases c with
  | openat pathPtr flags => exact live_openat h hrun
  | close fd => exact live_close h hk hrun
  | dup oldfd => exact live_dup h hrun
  | dup3 oldfd newfd => exact live_dup3 h hk hrun
  | fcntl fd cmd arg => exact live_fcntl h hrun

end Steps

/-! ## Runs -/

section Runs

variable {σ δ : Type}

/-- A new task, and the server when no file has been opened. -/
def start (brk : Word) (mem : Mem) (vfs : σ) : System σ δ :=
  ⟨TaskStruct.new brk, mem, ⟨vfs, fun _ => none⟩⟩

theorem live_start (brk : Word) (mem : Mem) (vfs : σ) : Live (start brk mem vfs : System σ δ) := by
  intro fid
  have hrefs : FdTable.new.refs (.file fid) = 0 := by
    refine FdTable.refs_eq_zero.mpr fun fd _ => ?_
    unfold FdTable.new
    split <;> exact nofun
  show (none : Option (File δ)).isSome ↔ 0 < FdTable.new.refs (.file fid)
  rw [hrefs]
  simp

/-- **In every state of a run the files open on the server are those of the descriptors, and no
call changes the file behind a descriptor that stays**, when every file is closed through its
last descriptor and `sys_dup3` overwrites no last descriptor. -/
theorem handles_live (V : Vfs σ δ) (brk : Word) (mem : Mem) (vfs : σ) (calls : List HandleCall)
    (hc : Run.Along (handleStep V) (fun s c => ∀ st, s = some st → KeepsHandles st.task c)
      (some (start brk mem vfs)) calls) :
    (∀ pre, pre <+: calls → ∀ s, Run.exec (handleStep V) (some (start brk mem vfs)) pre = some s →
      Live s) ∧
    ∀ pre c, pre ++ [c] <+: calls → ∀ s s',
      Run.exec (handleStep V) (some (start brk mem vfs)) pre = some s →
      handleStep V (some s) c = some s' → SameFiles s s' := by
  have hlive : ∀ pre, pre <+: calls → ∀ s,
      Run.exec (handleStep V) (some (start brk mem vfs)) pre = some s → Live s := by
    intro pre hpre
    refine @Run.exec_invariant_prefix _ _ (handleStep V) _ (fun o => ∀ s, o = some s → Live s) ?_ _
      (fun s hs => Option.some.inj hs ▸ live_start brk mem vfs) _ _ hc hpre
    intro o c ho hk s' hs'
    obtain ⟨s, rfl, hrun⟩ := Option.bind_eq_some_iff.mp hs'
    exact (live_run (ho s rfl) (hk s rfl) hrun).1
  refine ⟨hlive, ?_⟩
  rintro pre c ⟨post, rfl⟩ s s' hs hs'
  have hk : KeepsHandles s.task c := by
    rw [List.append_assoc, Run.along_append] at hc
    exact hc.2.1 s hs
  exact (live_run (hlive pre ⟨[c] ++ post, by rw [List.append_assoc]⟩ s hs) hk hs').2

/-- User memory with the path `/f` at `0x1000`. -/
def pathMem : Mem := fun a => if a = 0x1000 then 0x2f else if a = 0x1001 then 0x66 else 0

theorem pathAt_pathMem : pathAt pathMem 0x1000 = "/f" := by
  have hbytes : untilNul (copyFrom pathMem 0x1000 256) = utf8 "/f" := by decide +kernel
  rw [pathAt, hbytes, fromUtf8_eq_some.mpr rfl]
  rfl

theorem fsOpen_f : Linux.fsOpen oneFile fresh "/f" = some (opened, .ok 0#64) := by
  have hreq : Liblinux.fsOpen "/f" = some openF := @pathRequest_eq .openFile [0] "/f" (by decide)
  have hreply := openReply_ok 0#64 (List.replicate 240 0)
  simp only [Linux.fsOpen, hreq, Option.bind_eq_bind, Option.bind_some, FsServer.dispatch,
    decode_openF, serve_openF]
  rw [show (0 : BitVec 64) = 0#64 from rfl] at hreply
  rw [hreply]
  rfl

theorem fsClose_f : Linux.fsClose oneFile opened 0#64 = some closed := by
  simp only [Linux.fsClose, Liblinux.fsClose, fidRequest_eq, Option.bind_eq_bind, Option.bind_some,
    FsServer.dispatch, decode_fid.1, serve_closeZero]
  rfl

/-- The task after `/f` is opened, with descriptor 3. -/
def openedTask : TaskStruct :=
  { TaskStruct.new 0 with fdTable := Function.update FdTable.new 3 ⟨.file 0#64, 0⟩ }

theorem run_openat : HandleCall.run oneFile (start 0 pathMem [7]) (.openat 0x1000 0) =
    some ⟨openedTask, pathMem, opened⟩ := by
  have hsrv : (start 0 pathMem [7] : System (List UInt8) Unit).srv = fresh := rfl
  have hmem : (start 0 pathMem [7] : System (List UInt8) Unit).mem = pathMem := rfl
  simp only [HandleCall.run, hsrv, hmem, pathAt_pathMem, fsOpen_f, Option.bind_eq_bind,
    Option.bind_some]
  rfl

/-- A file is opened and closed again. -/
theorem handles_live_close : ∃ s, Run.exec (handleStep oneFile) (some (start 0 pathMem [7]))
    [.openat 0x1000 0, .close 3] = some s ∧ Live s := by
  obtain ⟨o, ho⟩ : ∃ o, sysClose openedTask pathMem 3 = .ok (o, some 0#64) := ⟨_, rfl⟩
  have hrun : Run.exec (handleStep oneFile) (some (start 0 pathMem [7]))
      [.openat 0x1000 0, .close 3] = some ⟨o.task, o.mem, closed⟩ := by
    simp only [Run.exec_cons, Run.exec_nil, handleStep, Option.bind_some, run_openat]
    simp only [HandleCall.run, ho, finish, fsClose_f, Option.map_some]
  refine ⟨_, hrun, (handles_live oneFile 0 pathMem [7] [.openat 0x1000 0, .close 3]
    ⟨fun _ _ => trivial, ?_, trivial⟩).1 _ (List.prefix_refl _) _ hrun⟩
  intro st hst fid hfid
  have hopen : handleStep oneFile (some (start 0 pathMem [7])) (.openat 0x1000 0) =
      some ⟨openedTask, pathMem, opened⟩ := by
    rw [handleStep, Option.bind_some, run_openat]
  rw [hopen] at hst
  cases hst
  have hkind : FdKind.file fid = .file 0#64 := by
    rw [← (FdTable.get_eq_some.mp hfid).2.1]
    rfl
  have hnone : FdTable.new.refs (.file 0#64) = 0 := by
    refine FdTable.refs_eq_zero.mpr fun fd _ => ?_
    unfold FdTable.new
    split <;> exact nofun
  have hone := @FdTable.refs_allocKind FdTable.new openedTask.fdTable (.file 0#64) (.file 0#64) 3 0
    rfl nofun
  rw [hnone, if_pos rfl] at hone
  rw [hkind]
  exact hone

/-- **A file is closed under a descriptor that still refers to it.**  The descriptor is copied
and the original closed. -/
theorem dup_close_dangles : ∃ s, Run.exec (handleStep oneFile) (some (start 0 pathMem [7]))
    [.openat 0x1000 0, .dup 3, .close 3] = some s ∧ ¬ Live s := by
  have hdup : HandleCall.run oneFile ⟨openedTask, pathMem, opened⟩ (.dup 3) =
      some ⟨(sysDup openedTask pathMem 3).task, pathMem, opened⟩ := rfl
  have hclose : ∃ o, sysClose (sysDup openedTask pathMem 3).task pathMem 3 = .ok (o, some 0#64) ∧
      (o.task.fdTable 4).kind = .file 0#64 := ⟨_, rfl, rfl⟩
  obtain ⟨o, ho, hfour⟩ := hclose
  refine ⟨⟨o.task, o.mem, closed⟩, ?_, ?_⟩
  · simp only [Run.exec_cons, Run.exec_nil, handleStep, Option.bind_some, run_openat, hdup]
    simp only [HandleCall.run, ho, finish, fsClose_f, Option.map_some]
  · intro hlive
    have hrefs : 0 < o.task.fdTable.refs (.file 0#64) :=
      FdTable.refs_pos.mpr ⟨4, by decide, hfour⟩
    have hopen := (hlive 0#64).mpr hrefs
    have hclosed : closed.file 0 0 = none := rfl
    rw [show (0#64).toNat = 0 from rfl, hclosed] at hopen
    cases hopen

end Runs

end QuackOS.Linux
