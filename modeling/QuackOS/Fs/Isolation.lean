import QuackOS.Fs.Server
import QuackOS.Fs.Client

/-!
# Isolation of file handles

Several clients send requests to one server, in any order.  `dispatch` keeps every open file in
the table of process 0, so a client can name the descriptor of another.

* `events` — a run of the server: who asked what, and the response;
* `Isolated` — the responses to a client's requests on its own handles do not depend on what
  another client asks about handles that are not its own;
* `isolated_of_quiet` — **they do not when those requests find no open file, or ask only for
  metadata**;
* `foreign_close_seen` — a close by another client is seen.
-/

namespace QuackOS.Fs

open QuackOS.Slice

/-! ## Runs -/

/-- One request of a run and its response; `none` once the server is down. -/
structure Event (ι : Type) where
  client : ι
  req : List UInt8
  resp : Option (List UInt8)

section Events

variable {ι σ δ : Type} (V : Vfs σ δ)

/-- The server takes a request: its next state and the response, both `none` when it panics or
is down already. -/
def answer (s : Option (FsServer σ δ)) (req : List UInt8) :
    Option (FsServer σ δ) × Option (List UInt8) :=
  match s.bind fun srv => srv.dispatch V req with
  | some (srv, resp) => (some srv, some resp)
  | none => (none, none)

/-- The run of the server on requests of any clients. -/
def events (s : Option (FsServer σ δ)) : List (ι × List UInt8) → List (Event ι)
  | [] => []
  | r :: rs => ⟨r.1, r.2, (answer V s r.2).2⟩ :: events (answer V s r.2).1 rs

/-- The descriptor that the bytes of a request name. -/
def named (req : List UInt8) : Option (BitVec 64) := (decode req).bind Request.fid

/-- The descriptor that the response to an `OP_OPEN` returns. -/
def Event.granted (e : Event ι) : Option (BitVec 64) :=
  match decode e.req, e.resp with
  | some (.openFile ..), some resp => if wordAt resp 0 8 = 0 then some (wordAt resp 8 8) else none
  | _, _ => none

variable [DecidableEq ι]

/-- The descriptors returned to a client in a run. -/
def grantedTo (c : ι) (es : List (Event ι)) : List (BitVec 64) :=
  (es.filter fun e => e.client = c).filterMap Event.granted

/-- A request of the client `c` that names a descriptor other than these. -/
def foreign (c : ι) (fids : List (BitVec 64)) (r : ι × List UInt8) : Bool :=
  r.1 = c ∧ (named r.2).any fun fd => fd ∉ fids

/-- The requests of a client on descriptors that were returned to it before, each with its
response; `fids` are the descriptors it has so far. -/
def handleResponses (c : ι) : List (BitVec 64) → List (Event ι) →
    List (List UInt8 × Option (List UInt8))
  | _, [] => []
  | fids, e :: es =>
    let rest := handleResponses c (if e.client = c then fids ++ e.granted.toList else fids) es
    if e.client = c ∧ (named e.req).any fun fd => fd ∈ fids then (e.req, e.resp) :: rest else rest

/-- **Isolation.**  What `A` receives on its handles is the same when the requests of `B` that
name a descriptor never returned to `B` are deleted from the run. -/
def Isolated (A B : ι) (s : FsServer σ δ) (rs : List (ι × List UInt8)) : Prop :=
  let fids := grantedTo B (events V (some s) rs)
  handleResponses A [] (events V (some s) rs) =
    handleResponses A [] (events V (some s) (rs.filter fun r => !foreign B fids r))

/-- A request on a descriptor of someone else is quiet when no file is open behind the
descriptor, or it asks only for the metadata of the file. -/
def Quiet (c : ι) (fids : List (BitVec 64)) (s : Option (FsServer σ δ)) (r : ι × List UInt8) :
    Prop :=
  foreign c fids r → ∀ srv fd, s = some srv → named r.2 = some fd →
    srv.file 0 fd.toNat = none ∨ decode r.2 = some (.fstat fd)

end Events

/-! ## Quiet runs -/

section Quiet

variable {ι σ δ : Type} [DecidableEq ι] {V : Vfs σ δ} {A B : ι} {fids : List (BitVec 64)}
  {s : Option (FsServer σ δ)} {srv : FsServer σ δ} {r : ι × List UInt8} {rs : List (ι × List UInt8)}

/-- A quiet foreign request leaves the server as it is. -/
theorem answer_of_quiet (hf : foreign B fids r = true) (hq : Quiet B fids s r) :
    (answer V s r.2).1 = s := by
  cases s with
  | none => rfl
  | some srv =>
    have hany : (named r.2).any (fun fd => fd ∉ fids) = true := by
      simp only [foreign, decide_eq_true_eq] at hf
      exact hf.2
    obtain ⟨fd, hfd, -⟩ := (Option.any_eq_true _ _).mp hany
    obtain ⟨req, hreq, hfid⟩ := Option.bind_eq_some_iff.mp hfd
    have hserve : ∃ resp, srv.serve V req = some (srv, resp) := by
      rcases hq hf srv fd rfl hfd with hclosed | hstat
      · exact FsServer.serve_of_not_open hfid hclosed
      · rw [hreq] at hstat
        cases hstat
        exact FsServer.serve_fstat
    obtain ⟨resp, hresp⟩ := hserve
    simp only [answer, FsServer.dispatch, hreq, Option.bind_some, hresp]

/-- Deleting quiet foreign requests deletes their events and nothing else. -/
theorem events_filter_of_quiet
    (hq : Run.Along (fun s r => (answer V s r.2).1) (Quiet B fids) s rs) :
    events V s (rs.filter fun r => !foreign B fids r) =
      (events V s rs).filter fun e => !foreign B fids (e.client, e.req) := by
  induction rs generalizing s with
  | nil => rfl
  | cons r rs ih =>
    have hrest := ih hq.2
    cases hf : foreign B fids r with
    | true =>
      have hs : (answer V s r.2).1 = s := answer_of_quiet hf hq.1
      simp only [hs] at hrest
      simp only [events, hf, List.filter_cons, Bool.not_true, Bool.false_eq_true, if_false, hs]
      exact hrest
    | false =>
      simp only [events, hf, List.filter_cons, Bool.not_false, if_true, hrest]

/-- The requests of other clients are not among a client's own. -/
theorem handleResponses_filter {own : List (BitVec 64)} {es : List (Event ι)} {p : Event ι → Bool}
    (hp : ∀ e, e.client = A → p e = true) :
    handleResponses A own (es.filter p) = handleResponses A own es := by
  induction es generalizing own with
  | nil => rfl
  | cons e es ih =>
    cases hpe : p e with
    | true => simp only [List.filter_cons, hpe, if_true, handleResponses, ih]
    | false =>
      have hne : e.client ≠ A := by
        intro h
        rw [hp e h] at hpe
        cases hpe
      simp only [List.filter_cons, hpe, Bool.false_eq_true, if_false, handleResponses, hne,
        false_and, ih]

/-- **A run in which every request of `B` on a descriptor that was never returned to `B` is
quiet is isolated.** -/
theorem isolated_of_quiet (hAB : A ≠ B)
    (hq : Run.Along (fun s r => (answer V s r.2).1)
      (Quiet B (grantedTo B (events V (some srv) rs))) (some srv) rs) :
    Isolated V A B srv rs := by
  dsimp only [Isolated]
  rw [events_filter_of_quiet hq]
  refine (handleResponses_filter ?_).symm
  intro e he
  have hne : e.client ≠ B := he ▸ hAB
  simp [foreign, hne]

end Quiet

/-! ## Two clients and one file -/

/-- A file system with one file `/f`, whose contents are the state. -/
def oneFile : Vfs (List UInt8) Unit where
  openPath s path _ := some (s, if path = "/f" then .ok () else .error .ENOENT)
  read s _ pos n := some (s, .ok ((s.drop pos).take n))
  write s _ pos bs := some (s.take pos ++ bs ++ s.drop (pos + bs.length), .ok bs.length)
  size s _ := s.length
  stat s _ := some (BitVec.ofNat 64 s.length)
  isDir _ _ := false
  getdents s _ _ _ := some (s, none)
  release s _ := some s
  readlink s _ := some (s, .error .ENOENT)
  create s path _ := some (s, .error (if path = "/f" then .EEXIST else .ENOSPC))
  unlink s _ := some (s, .error .ENOENT)
  rename s _ _ := some (s, .error .ENOENT)

/-- What `fs_open("/f")` sends. -/
def openF : List UInt8 := Op.openFile.byte :: ([0] ++ (utf8 "/f" ++ List.replicate 252 0))

/-- What `fs_close(0)` sends. -/
def closeZero : List UInt8 := Op.close.byte :: (leBytes 8 0 ++ List.replicate 247 0)

/-- What `fs_read` sends for one byte of file 0. -/
def readZero : List UInt8 :=
  Op.read.byte :: (leBytes 8 0 ++ (leBytes 8 1 ++ List.replicate 239 0))

section OneFile

/-- A fresh server, the server after `/f` is opened, and after it is closed again. -/
def fresh : FsServer (List UInt8) Unit := ⟨[7], fun _ => none⟩

def opened : FsServer (List UInt8) Unit :=
  let table := Function.update (fun _ => none) 0 (some ⟨(), 0, 0⟩)
  ⟨[7], Function.update (fun _ => none) 0 (some table)⟩

def closed : FsServer (List UInt8) Unit := opened.setFile 0 0 none

theorem answer_of_serve {σ δ : Type} {V : Vfs σ δ} {srv srv' : FsServer σ δ} {r : Request}
    {req resp : List UInt8} (hd : decode req = some r) (hs : srv.serve V r = some (srv', resp)) :
    answer V (some srv) req = (some srv', some resp) := by
  simp only [answer, FsServer.dispatch, hd, Option.bind_some, hs]

theorem decode_openF : decode openF = some (.openFile 0 "/f") := decode_open (by decide)

theorem decode_closeZero : decode closeZero = some (.close 0#64) := decode_fid.1

theorem decode_readZero : decode readZero = some (.read 0#64 1#64) := decode_fidLen.1

/-- The first client is given descriptor 0. -/
theorem serve_openF : fresh.serve oneFile (.openFile 0 "/f") =
    some (opened, leBytes 8 0#64 ++ leBytes 8 0#64 ++ List.replicate 240 0) := by
  have hopen : fresh.openFile oneFile 0 "/f" 0 = some (opened, .ok 0) := rfl
  have hresp := @FsServer.okResponse_eq 0#64 [] (by simp)
  simp only [List.append_nil, List.length_nil, Nat.sub_zero] at hresp
  simp only [FsServer.serve, hopen, Option.bind_eq_bind, Option.bind_some, FsServer.respond]
  rw [show BitVec.ofNat 64 0 = 0#64 from rfl, hresp, Option.map_some]
  rfl

theorem answer_openF : answer oneFile (some fresh) openF =
    (some opened, some (leBytes 8 0#64 ++ leBytes 8 0#64 ++ List.replicate 240 0)) :=
  answer_of_serve decode_openF serve_openF

theorem granted_openF (c : Bool) :
    (⟨c, openF, (answer oneFile (some fresh) openF).2⟩ : Event Bool).granted = some 0#64 := by
  have h₀ := @wordAt_append [] (leBytes 8 0#64 ++ List.replicate 240 0) 0 8 0#64 rfl (by decide)
  have h₁ := @wordAt_append (leBytes 8 0#64) (List.replicate 240 0) 8 8 0#64 (by simp) (by decide)
  simp only [List.nil_append, ← List.append_assoc] at h₀
  simp only [Event.granted, decode_openF, answer_openF, h₀, h₁]
  rfl

/-- The second client closes it. -/
theorem serve_closeZero : opened.serve oneFile (.close 0#64) =
    some (closed, leBytes 8 0#64 ++ List.replicate 248 0) := by
  have hclose : opened.close oneFile 0 0 = some (closed, .ok ()) := rfl
  have hblit := @blit_pad _ [] (leBytes 8 0#64) 0 256 0 rfl (by simp)
  simp only [List.nil_append, length_leBytes] at hblit
  have hresp : response [(0, leBytes 8 0#64)] = some (leBytes 8 0#64 ++ List.replicate 248 0) := by
    simp only [response, List.foldlM_cons, List.foldlM_nil, hblit, Option.bind_eq_bind,
      Option.bind_some]
    rfl
  simp only [FsServer.serve]
  rw [show (0#64).toNat = 0 from rfl, hclose]
  simp only [Option.bind_eq_bind, Option.bind_some, FsServer.respond]
  rw [show (0 : BitVec 64) = 0#64 from rfl, hresp, Option.map_some]

theorem answer_closeZero : answer oneFile (some opened) closeZero =
    (some closed, some (leBytes 8 0#64 ++ List.replicate 248 0)) :=
  answer_of_serve decode_closeZero serve_closeZero

/-- Then the first client cannot read any more. -/
theorem answer_readZero_closed : (answer oneFile (some closed) readZero).2 =
    some (leBytes 8 (BitVec.ofInt 64 (-9)) ++ List.replicate 248 0) := by
  have hserve : closed.serve oneFile (.read 0#64 1#64) =
      some (closed, leBytes 8 (BitVec.ofInt 64 (-9)) ++ List.replicate 248 0) := by
    have hread : closed.read oneFile 0 0 1 = some (closed, .error .EBADF) := rfl
    simp only [FsServer.serve]
    rw [show (0#64).toNat = 0 from rfl, show min (1#64).toNat 240 = 1 from rfl, hread]
    simp only [Option.bind_eq_bind, Option.bind_some, FsServer.respond, FsServer.errResponse_eq,
      Option.map_some]
    rfl
  rw [answer_of_serve decode_readZero hserve]

/-- Had the second client stayed away, it could. -/
theorem answer_readZero_opened : (answer oneFile (some opened) readZero).2 =
    some (leBytes 8 0#64 ++ leBytes 8 1#64 ++ [7] ++ List.replicate 239 0) := by
  have hserve : ∃ srv, opened.serve oneFile (.read 0#64 1#64) =
      some (srv, leBytes 8 0#64 ++ leBytes 8 1#64 ++ [7] ++ List.replicate 239 0) := by
    have hread : ∃ srv, opened.read oneFile 0 0 1 = some (srv, .ok [7]) := ⟨_, rfl⟩
    obtain ⟨srv, hread⟩ := hread
    refine ⟨srv, ?_⟩
    have hresp := @FsServer.okResponse_eq 1#64 [7] (by simp)
    simp only [List.length_singleton, Nat.reduceSub] at hresp
    simp only [FsServer.serve]
    rw [show (0#64).toNat = 0 from rfl, show min (1#64).toNat 240 = 1 from rfl, hread]
    simp only [Option.bind_eq_bind, Option.bind_some, FsServer.respond]
    rw [show BitVec.ofNat 64 [(7 : UInt8)].length = 1#64 from rfl,
      show List.take 240 [(7 : UInt8)] = [7] from rfl, hresp, Option.map_some]
    rfl
  obtain ⟨srv, hserve⟩ := hserve
  rw [answer_of_serve decode_readZero hserve]

theorem named_openF : named openF = none := by
  simp only [named, decode_openF, Option.bind_some, Request.fid]

theorem named_closeZero : named closeZero = some 0#64 := by
  simp only [named, decode_closeZero, Option.bind_some, Request.fid]

theorem named_readZero : named readZero = some 0#64 := by
  simp only [named, decode_readZero, Option.bind_some, Request.fid]

/-- What the first client receives on descriptor 0, when nothing is said about the server after
it was opened. -/
theorem handleResponses_read (resp : Option (List UInt8)) :
    handleResponses true [] [⟨true, openF, (answer oneFile (some fresh) openF).2⟩,
      ⟨true, readZero, resp⟩] = [(readZero, resp)] := by
  simp only [handleResponses, named_openF, named_readZero, granted_openF]
  simp

/-- **A close by a client that never opened anything is seen by the client that did.** -/
theorem foreign_close_seen :
    ¬ Isolated oneFile true false fresh
      [(true, openF), (false, closeZero), (true, readZero)] := by
  have hgranted : grantedTo false (events oneFile (some fresh)
      [(true, openF), (false, closeZero), (true, readZero)]) = [] := by
    simp [grantedTo, events, Event.granted, decode_closeZero]
  have hforeign : foreign false [] (false, closeZero) = true := by
    simp [foreign, named_closeZero]
  have hown : ∀ req, foreign false [] (true, req) = false := by
    intro req
    simp [foreign]
  have hwith : handleResponses true [] (events oneFile (some fresh)
      [(true, openF), (false, closeZero), (true, readZero)]) =
      [(readZero, some (leBytes 8 (BitVec.ofInt 64 (-9)) ++ List.replicate 248 0))] := by
    have hskip := @handleResponses_filter _ _ true []
      (events oneFile (some fresh) [(true, openF), (false, closeZero), (true, readZero)])
      (fun e => e.client) (fun e he => he)
    rw [← hskip]
    simp only [events, List.filter_cons, List.filter_nil, if_true, Bool.false_eq_true, if_false]
    rw [handleResponses_read, answer_openF, answer_closeZero, answer_readZero_closed]
  have hwithout : handleResponses true [] (events oneFile (some fresh)
      [(true, openF), (true, readZero)]) =
      [(readZero, some (leBytes 8 0#64 ++ leBytes 8 1#64 ++ [7] ++ List.replicate 239 0))] := by
    simp only [events]
    rw [handleResponses_read, answer_openF, answer_readZero_opened]
  intro h
  dsimp only [Isolated] at h
  simp only [hgranted, List.filter_cons, List.filter_nil, hforeign, hown, Bool.not_true,
    Bool.not_false, Bool.false_eq_true, if_true, if_false] at h
  rw [hwith, hwithout] at h
  have hhead := congrArg (fun l => (l.head?.bind Prod.snd).bind List.head?) h
  revert hhead
  simp only [List.head?_cons, Option.bind_some, List.head?_append]
  decide

/-- A close of a descriptor that is not open is not seen. -/
theorem isolated_of_quiet_closeOne :
    Isolated oneFile true false fresh [(true, openF),
      (false, Op.close.byte :: (leBytes 8 1 ++ List.replicate 247 0)), (true, readZero)] := by
  refine isolated_of_quiet (by decide) ⟨?_, ?_, ?_, trivial⟩
  · intro hf
    cases (decide_eq_true_eq.mp hf).1
  · intro _ srv fd hsrv hfd
    dsimp only at hsrv hfd
    rw [answer_openF] at hsrv
    rw [named, decode_fid.1] at hfd
    cases hsrv
    cases hfd
    exact .inl rfl
  · intro hf
    cases (decide_eq_true_eq.mp hf).1

end OneFile

end QuackOS.Fs
