import QuackOS.Ipc.Channel
import QuackOS.Lib.Run

/-!
# Remote procedure calls to the file-system server

Clients call the file-system server with `sys_ipc_call`, a send and a receive on one and the same
channel; the server's `run_ipc_loop` receives a request, dispatches it and sends the response, on
that channel too.  This file has the parties as state machines whose steps are the
`match_sender`, `match_receiver`, `deliver` and `wake` calls of the source, taken in any order.  A
parked thread goes on when it has been woken.

Threads are named by their slot in the thread table, which tells live threads apart.  Every
message carries a `Tag` that says whose it is, and `unanswered`, `answers` and `returned` record
what has happened; the program does not see any of these.
-/

namespace QuackOS.Fs

open QuackOS.Sche (ThreadId)
open QuackOS.Ipc

/-- Whose message this is: the request of a client's call, or the response to it. -/
structure Tag where
  isReply : Bool
  client : ℕ
  call : ℕ
  deriving DecidableEq, Repr

/-- The tag of the response to a request. -/
def Tag.reply (g : Tag) : Tag := { g with isReply := true }

/-- The steps of `sys_ipc_call`; `n` is the length of the receive buffer. -/
inductive ClientPhase
  | idle
  | send (req : List (BitVec 8)) (n : ℕ)
  | sendMatched (req : List (BitVec 8)) (n : ℕ) (receiver : ThreadId)
  | sendDelivered (req : List (BitVec 8)) (n : ℕ) (receiver : ThreadId)
  | sendParked (req : List (BitVec 8)) (n : ℕ)
  | recv (n : ℕ)
  | recvMatched (n : ℕ) (sender : WaitEntry) (g : Option Tag)
  | recvDelivered (n : ℕ) (sender : WaitEntry) (g : Option Tag)
  | recvParked (n : ℕ)

/-- The steps of `run_ipc_loop`; `g` is the tag of the request being served. -/
inductive ServerPhase
  | recv
  | recvMatched (sender : WaitEntry) (g : Option Tag)
  | recvDelivered (sender : WaitEntry) (g : Option Tag)
  | recvParked
  | dispatch (req : List (BitVec 8)) (g : Option Tag)
  | send (resp : List (BitVec 8)) (g : Option Tag)
  | sendMatched (resp : List (BitVec 8)) (g : Option Tag) (receiver : ThreadId)
  | sendDelivered (resp : List (BitVec 8)) (g : Option Tag) (receiver : ThreadId)
  | sendParked (resp : List (BitVec 8)) (g : Option Tag)
  | panicked

/-- What a client's receive phase returned. -/
structure Return where
  client : ℕ
  call : ℕ
  n : ℕ
  g : Option Tag
  data : List (BitVec 8)
  deriving DecidableEq, Repr

/-- What the dispatcher of the file system builds: a buffer of 256 bytes, or the 8 zeros that
answer an empty request. -/
def IsResponse (resp : List (BitVec 8)) : Prop := resp.length ≤ 256 ∧ 8 ∣ resp.length

/-- The fixed parts: the server's slot, the generations of the threads, and the dispatcher, which
may build any response of whole words that fits a message. -/
structure Setup (σ : Type) where
  srv : ℕ
  gen : ℕ → ℕ
  dispatch : σ → List (BitVec 8) → σ × { resp : List (BitVec 8) // IsResponse resp }

/-- The id of the thread in a slot. -/
def Setup.tid {σ : Type} (P : Setup σ) (i : ℕ) : ThreadId := ⟨i, P.gen i⟩

/-- The channel, the receive buffers, the parties, and the record of what has happened. -/
structure Rpc (σ : Type) where
  fs : σ
  channel : ChannelInner
  buffers : IpcBufferTable
  awake : ℕ → Bool
  server : ServerPhase
  client : ℕ → ClientPhase
  calls : ℕ → ℕ
  inbox : ℕ → Option Tag
  unanswered : List (ℕ × ℕ)
  answers : List (ℕ × ℕ × List (BitVec 8))
  returned : List Return

namespace Rpc

variable {σ : Type} (P : Setup σ)

/-- The message both sides build of their bytes. -/
def sentMessage (bytes : List (BitVec 8)) : Message := .newShort 1 (packShort bytes)

def setClient (s : Rpc σ) (i : ℕ) (ph : ClientPhase) : Rpc σ :=
  { s with client := Function.update s.client i ph }

def setAwake (s : Rpc σ) (i : ℕ) (b : Bool) : Rpc σ :=
  { s with awake := Function.update s.awake i b }

/-- `deliver`, with the tag of the message. -/
def deliver (s : Rpc σ) (msg : Message) (g : Option Tag) (tid : ThreadId) : Rpc σ :=
  { s with
    buffers := s.buffers.delivered msg tid
    inbox := Function.update s.inbox tid.index g }

/-- The message of a parked sender; a missing one counts as empty. -/
def entryMessage (e : WaitEntry) : Message := e.msg.getD (.newShort 0 .empty)

/-- The tag of the message a thread is sending. -/
def outgoing (s : Rpc σ) (j : ℕ) : Option Tag :=
  if j = P.srv then
    match s.server with
    | .sendParked _ g => g.map Tag.reply
    | _ => none
  else some { isReply := false, client := j, call := s.calls j }

/-- The receive phase of a client's call returns. -/
def giveBack (s : Rpc σ) (i n : ℕ) (g : Option Tag) (data : List (BitVec 8)) : Rpc σ :=
  { s with returned := ⟨i, s.calls i, n, g, data⟩ :: s.returned }.setClient i .idle

/-- The next step of a client's `sys_ipc_call`. -/
def clientStep (s : Rpc σ) (i : ℕ) : Rpc σ :=
  match s.client i with
  | .idle => s
  | .send req n =>
      if 256 < req.length then s.setClient i .idle
      else
        match s.channel.matchSender (P.tid i) (sentMessage req) with
        | (.error _, channel) => { s with channel }.setClient i .idle
        | (.ok (.matched r), channel) =>
            { s with channel, unanswered := (i, s.calls i) :: s.unanswered }.setClient i
              (.sendMatched req n r)
        | (.ok .parked, channel) =>
            ({ s with channel, unanswered := (i, s.calls i) :: s.unanswered }.setClient i
              (.sendParked req n)).setAwake i false
  | .sendMatched req n r =>
      (s.deliver (sentMessage req) (some ⟨false, i, s.calls i⟩) r).setClient i
        (.sendDelivered req n r)
  | .sendDelivered _ n r => (s.setAwake r.index true).setClient i (.recv n)
  | .sendParked _ n => if s.awake i then s.setClient i (.recv n) else s
  | .recv n =>
      match s.channel.matchReceiver (P.tid i) with
      | (.error _, channel) => { s with channel }.setClient i .idle
      | (.ok (.matched e), channel) =>
          { s with channel }.setClient i (.recvMatched n e (s.outgoing P e.threadId.index))
      | (.ok .parked, channel) => ({ s with channel }.setClient i (.recvParked n)).setAwake i false
  | .recvMatched n e g =>
      (s.deliver (entryMessage e) g (P.tid i)).setClient i (.recvDelivered n e g)
  | .recvDelivered n e g =>
      let s := s.setAwake e.threadId.index true
      match entryMessage e with
      | .short _ payload => s.giveBack i n g (unpackShort payload n)
      | _ => s.giveBack i n g []
  | .recvParked n =>
      if s.awake i then s.giveBack i n (s.inbox i) (s.buffers.readBuffer (P.tid i) n) else s

/-- The bytes `kernel_recv` makes of a message. -/
def kernelBytes : Message → List (BitVec 8)
  | .short _ payload => payloadBytes payload.words (min payload.len 256)
  | _ => []

/-- The server takes up a request. -/
def takeUp (s : Rpc σ) (req : List (BitVec 8)) (g : Option Tag) : Rpc σ :=
  { s with server := .dispatch req g }

/-- The answer is recorded for the call the request belongs to. -/
def record (s : Rpc σ) (g : Option Tag) (resp : List (BitVec 8)) : Rpc σ :=
  match g with
  | some g => { s with answers := (g.client, g.call, resp) :: s.answers }
  | none => s

/-- The request is answered. -/
def settle (s : Rpc σ) (g : Option Tag) : Rpc σ :=
  match g with
  | some g => { s with unanswered := s.unanswered.filter (· ≠ (g.client, g.call)) }
  | none => s

/-- The next step of the server's loop. -/
def serverStep (s : Rpc σ) : Rpc σ :=
  match s.server with
  | .recv =>
      match s.channel.matchReceiver (P.tid P.srv) with
      | (.error _, channel) => { s with channel, server := .panicked }
      | (.ok (.matched e), channel) =>
          { s with channel, server := .recvMatched e (s.outgoing P e.threadId.index) }
      | (.ok .parked, channel) => { s with channel, server := .recvParked }.setAwake P.srv false
  | .recvMatched e g =>
      { s.deliver (entryMessage e) g (P.tid P.srv) with server := .recvDelivered e g }
  | .recvDelivered e g => (s.setAwake e.threadId.index true).takeUp (kernelBytes (entryMessage e)) g
  | .recvParked =>
      if s.awake P.srv then
        match s.buffers.getIpcBuffer (P.tid P.srv) with
        | .error _ => { s with server := .panicked }
        | .ok b =>
            match b.readShort with
            | none => s.takeUp [] (s.inbox P.srv)
            | some p => s.takeUp (kernelBytes (.newShort 0 p)) (s.inbox P.srv)
      else s
  | .dispatch req g =>
      let (fs, resp) := P.dispatch s.fs req
      { s.record g resp with fs, server := .send resp g }
  | .send resp g =>
      match s.channel.matchSender (P.tid P.srv) (sentMessage resp) with
      | (.error _, channel) => { s with channel, server := .panicked }
      | (.ok (.matched r), channel) =>
          { s.settle g with channel, server := .sendMatched resp g r }
      | (.ok .parked, channel) =>
          { s.settle g with channel, server := .sendParked resp g }.setAwake P.srv false
  | .sendMatched resp g r =>
      { s.deliver (sentMessage resp) (g.map Tag.reply) r with server := .sendDelivered resp g r }
  | .sendDelivered _ _ r => { s.setAwake r.index true with server := .recv }
  | .sendParked _ _ => if s.awake P.srv then { s with server := .recv } else s
  | .panicked => s

end Rpc

/-- Who takes the next step: the server, or a client, that may also begin a new call. -/
inductive Move
  | server
  | client (i : ℕ)
  | call (i : ℕ) (req : List (BitVec 8)) (n : ℕ)

namespace Rpc

variable {σ : Type} (P : Setup σ)

/-- `sys_ipc_call` is entered. -/
def call (s : Rpc σ) (i : ℕ) (req : List (BitVec 8)) (n : ℕ) : Rpc σ :=
  match s.client i with
  | .idle => { s with calls := Function.update s.calls i (s.calls i + 1) }.setClient i (.send req n)
  | _ => s

/-- One step of the protocol.  A panic of the server stops the kernel. -/
def step (s : Rpc σ) (m : Move) : Rpc σ :=
  match s.server, m with
  | .panicked, _ => s
  | _, .server => s.serverStep P
  | _, .client i => if i = P.srv then s else s.clientStep P i
  | _, .call i req n => if i = P.srv then s else s.call i req n

/-- The server has just created the channel, and nobody has called yet. -/
def init (fs : σ) : Rpc σ where
  fs := fs
  channel := .new
  buffers _ := none
  awake _ := true
  server := .recv
  client _ := .idle
  calls _ := 0
  inbox _ := none
  unanswered := []
  answers := []
  returned := []

end Rpc

end QuackOS.Fs
