import QuackOS.Fs.Rpc

/-!
# Where the replies go

A reply finds its client as long as no client sends while an earlier request is still
unanswered: then the server deals with one client at a time, at most one request waits behind the
reply, and nobody meets anybody else on the channel (`Config`).  With two requests under way the
second client takes the first for the server, or the first takes the second's request for its
reply (`crossed_misrouted`).
-/

namespace QuackOS.Fs

open QuackOS.Sche (ThreadId)
open QuackOS.Ipc

namespace Rpc

variable {σ : Type} (P : Setup σ)

/-- The request of a client's present call. -/
def request (s : Rpc σ) (i : ℕ) : Tag := ⟨false, i, s.calls i⟩

/-- The response to it. -/
def response (s : Rpc σ) (i : ℕ) : Tag := ⟨true, i, s.calls i⟩

/-- A parked sender. -/
def senderEntry (i : ℕ) (bytes : List (BitVec 8)) : WaitEntry :=
  { threadId := P.tid i, reason := .send, msg := some (sentMessage bytes) }

/-- A parked receiver. -/
def receiverEntry (i : ℕ) : WaitEntry :=
  { threadId := P.tid i, reason := .receive, msg := none }

/-- The client has sent its request and has not come to its receive. -/
def Before (s : Rpc σ) (i : ℕ) : Prop :=
  ∃ n, s.client i = .recv n ∨ ∃ req, s.client i = .sendParked req n ∧ s.awake i = true

/-- The client waits for its reply. -/
def Listening (s : Rpc σ) (i : ℕ) : Prop :=
  ∃ n, s.client i = .recvParked n ∧ s.awake i = false

/-- The server has the request of a client, and has not answered it. -/
def Serving (s : Rpc σ) (i : ℕ) : Prop :=
  (s.server = .recvParked ∧ s.awake P.srv = true ∧ s.inbox P.srv = some (s.request i)) ∨
  (∃ req, s.server = .dispatch req (some (s.request i))) ∨
  (∃ resp, s.server = .send resp (some (s.request i)) ∧ IsResponse resp ∧
    (i, s.calls i, resp) ∈ s.answers)

/-- The request behind: at most one client is parked with its request. -/
inductive Backlog (s : Rpc σ) : List WaitEntry → List (ℕ × ℕ) → Option ℕ → Prop
  | empty : Backlog s [] [] none
  | one {b n : ℕ} {req : List (BitVec 8)} (hb : b ≠ P.srv)
      (hc : s.client b = .sendParked req n) (ha : s.awake b = false) :
      Backlog s [senderEntry P b req] [(b, s.calls b)] (some b)

/-- How far the server and the client it deals with have come; the second index is the client
behind. -/
inductive Config (s : Rpc σ) : Option ℕ → Option ℕ → Prop
  | ready {l : List WaitEntry} {u : List (ℕ × ℕ)} {w : Option ℕ}
      (hs : s.server = .recv ∨ ∃ resp g, s.server = .sendParked resp g ∧ s.awake P.srv = true)
      (hb : Backlog P s l u w) (hl : s.channel.Lists [] l) (hu : s.unanswered = u) : Config s none w
  | parked (hs : s.server = .recvParked) (ha : s.awake P.srv = false)
      (hl : s.channel.Lists [receiverEntry P P.srv] []) (hu : s.unanswered = []) :
      Config s none none
  | taking {i n : ℕ} {req : List (BitVec 8)} (hi : i ≠ P.srv)
      (hs : s.server = .recvMatched (senderEntry P i req) (some (s.request i)) ∨
        s.server = .recvDelivered (senderEntry P i req) (some (s.request i)))
      (hc : s.client i = .sendParked req n) (ha : s.awake i = false)
      (hl : s.channel.Lists [] []) (hu : s.unanswered = [(i, s.calls i)]) : Config s (some i) none
  | handing {i n : ℕ} {req : List (BitVec 8)} (hi : i ≠ P.srv) (hs : s.server = .recvParked)
      (ha : s.awake P.srv = false)
      (hc : s.client i = .sendMatched req n (P.tid P.srv) ∨
        (s.client i = .sendDelivered req n (P.tid P.srv) ∧ s.inbox P.srv = some (s.request i)))
      (hl : s.channel.Lists [] []) (hu : s.unanswered = [(i, s.calls i)]) : Config s (some i) none
  | serving {i : ℕ} {rs : List WaitEntry} (hi : i ≠ P.srv) (hs : Serving P s i)
      (hc : (Before s i ∧ rs = []) ∨ (Listening s i ∧ rs = [receiverEntry P i]))
      (hl : s.channel.Lists rs []) (hu : s.unanswered = [(i, s.calls i)]) : Config s (some i) none
  | replying {i n : ℕ} {resp : List (BitVec 8)} {l : List WaitEntry} {u : List (ℕ × ℕ)}
      {w : Option ℕ} (hi : i ≠ P.srv)
      (hs : s.server = .sendMatched resp (some (s.request i)) (P.tid i) ∨
        (s.server = .sendDelivered resp (some (s.request i)) (P.tid i) ∧
          s.inbox i = some (s.response i) ∧ s.buffers.readBuffer (P.tid i) n = resp.take n))
      (hc : s.client i = .recvParked n) (ha : s.awake i = false)
      (hroom : i < maxThreadBuffers ∨ n = 0) (hlen : IsResponse resp)
      (hans : (i, s.calls i, resp) ∈ s.answers) (hb : Backlog P s l u w)
      (hl : s.channel.Lists [] l) (hu : s.unanswered = u) : Config s (some i) w
  | offering {i : ℕ} {resp : List (BitVec 8)} {l : List WaitEntry} {u : List (ℕ × ℕ)}
      {w : Option ℕ} (hi : i ≠ P.srv) (hs : s.server = .sendParked resp (some (s.request i)))
      (ha : s.awake P.srv = false) (hc : Before s i) (hlen : IsResponse resp)
      (hans : (i, s.calls i, resp) ∈ s.answers) (hb : Backlog P s l u w)
      (hl : s.channel.Lists [] (senderEntry P P.srv resp :: l)) (hu : s.unanswered = u) :
      Config s (some i) w
  | taken {i n : ℕ} {resp : List (BitVec 8)} {l : List WaitEntry} {u : List (ℕ × ℕ)}
      {w : Option ℕ} (hi : i ≠ P.srv) (hs : s.server = .sendParked resp (some (s.request i)))
      (ha : s.awake P.srv = false)
      (hc : s.client i = .recvMatched n (senderEntry P P.srv resp) (some (s.response i)) ∨
        s.client i = .recvDelivered n (senderEntry P P.srv resp) (some (s.response i)))
      (hlen : IsResponse resp) (hans : (i, s.calls i, resp) ∈ s.answers)
      (hb : Backlog P s l u w) (hl : s.channel.Lists [] l) (hu : s.unanswered = u) :
      Config s (some i) w

/-- A client that nobody deals with: outside of its call or at its very beginning, or with its
reply in its buffer. -/
def Apart (s : Rpc σ) (j : ℕ) : Prop :=
  (s.client j = .idle ∨ ∃ req n, s.client j = .send req n) ∨
  (∃ n resp, s.client j = .recvParked n ∧ s.awake j = true ∧ s.inbox j = some (s.response j) ∧
    (j, s.calls j, resp) ∈ s.answers ∧ s.buffers.readBuffer (P.tid j) n = resp.take n)

/-- The replies that were returned are the clients' own. -/
def RepliesRouted (s : Rpc σ) : Prop :=
  ∀ x ∈ s.returned, x.g = some ⟨true, x.client, x.call⟩ ∧
    ∃ resp, (x.client, x.call, resp) ∈ s.answers ∧ x.data = resp.take x.n

/-- The invariant of the protocol, until the server panics. -/
structure Inv (s : Rpc σ) : Prop where
  config : s.server = .panicked ∨ ∃ e w, Config P s e w ∧
    ∀ j, j ≠ P.srv → e ≠ some j → w ≠ some j → Apart P s j
  returned : RepliesRouted s

/-! ## Frames -/

/-- Nothing about the client has changed. -/
structure SameAt (s s' : Rpc σ) (j : ℕ) : Prop where
  client : s'.client j = s.client j
  calls : s'.calls j = s.calls j
  awake : s'.awake j = s.awake j
  inbox : s'.inbox j = s.inbox j
  read : s'.buffers.readBuffer (P.tid j) = s.buffers.readBuffer (P.tid j)

variable {P} {s s' : Rpc σ} {e w : Option ℕ}

theorem Apart.frame {j : ℕ} (h : Apart P s j) (hj : SameAt P s s' j)
    (hans : ∀ a ∈ s.answers, a ∈ s'.answers) : Apart P s' j := by
  unfold Apart response
  rw [hj.client, hj.awake, hj.inbox, hj.calls, hj.read]
  rcases h with h | ⟨n, resp, hc, ha, hin, hmem, hread⟩
  · exact .inl h
  · exact .inr ⟨n, resp, hc, ha, hin, hans _ hmem, hread⟩

theorem Backlog.frame {l : List WaitEntry} {u : List (ℕ × ℕ)} (h : Backlog P s l u w)
    (hw : ∀ j, w = some j → SameAt P s s' j) : Backlog P s' l u w := by
  cases h with
  | empty => exact .empty
  | one hb hc ha =>
    have hj := hw _ rfl
    rw [← hj.calls]
    exact .one hb (by rw [hj.client, hc]) (by rw [hj.awake, ha])

theorem Before.frame {i : ℕ} (h : Before s i) (hi : SameAt P s s' i) : Before s' i := by
  unfold Before
  rw [hi.client, hi.awake]
  exact h

theorem Listening.frame {i : ℕ} (h : Listening s i) (hi : SameAt P s s' i) : Listening s' i := by
  unfold Listening
  rw [hi.client, hi.awake]
  exact h

/-- The tags of a client that has not changed. -/
theorem SameAt.request {i : ℕ} (hi : SameAt P s s' i) : s'.request i = s.request i := by
  unfold Rpc.request
  rw [hi.calls]

theorem SameAt.response {i : ℕ} (hi : SameAt P s s' i) : s'.response i = s.response i := by
  unfold Rpc.response
  rw [hi.calls]

/-- A step about a client that nobody deals with. -/
theorem Config.frame (h : Config P s e w) (hserver : s'.server = s.server)
    (hchannel : s'.channel = s.channel) (hunanswered : s'.unanswered = s.unanswered)
    (hawake : s'.awake P.srv = s.awake P.srv) (hinbox : s'.inbox P.srv = s.inbox P.srv)
    (hans : ∀ a ∈ s.answers, a ∈ s'.answers) (he : ∀ j, e = some j → SameAt P s s' j)
    (hw : ∀ j, w = some j → SameAt P s s' j) : Config P s' e w := by
  cases h with
  | ready hs hb hl hu =>
    exact .ready (by rw [hserver, hawake]; exact hs) (hb.frame hw) (by rw [hchannel]; exact hl)
      (by rw [hunanswered]; exact hu)
  | parked hs ha hl hu =>
    exact .parked (by rw [hserver]; exact hs) (by rw [hawake]; exact ha)
      (by rw [hchannel]; exact hl) (by rw [hunanswered]; exact hu)
  | taking hi hs hc ha hl hu =>
    have hj := he _ rfl
    exact .taking hi (by rw [hserver, hj.request]; exact hs) (by rw [hj.client]; exact hc)
      (by rw [hj.awake]; exact ha) (by rw [hchannel]; exact hl)
      (by rw [hunanswered, hj.calls]; exact hu)
  | handing hi hs ha hc hl hu =>
    have hj := he _ rfl
    exact .handing hi (by rw [hserver]; exact hs) (by rw [hawake]; exact ha)
      (by rw [hj.client, hinbox, hj.request]; exact hc) (by rw [hchannel]; exact hl)
      (by rw [hunanswered, hj.calls]; exact hu)
  | serving hi hs hc hl hu =>
    have hj := he _ rfl
    refine .serving hi ?_ ?_ (by rw [hchannel]; exact hl) (by rw [hunanswered, hj.calls]; exact hu)
    · unfold Serving
      rw [hserver, hawake, hinbox, hj.request, hj.calls]
      rcases hs with hs | hs | ⟨resp, hs, hlen, hmem⟩
      · exact .inl hs
      · exact .inr (.inl hs)
      · exact .inr (.inr ⟨resp, hs, hlen, hans _ hmem⟩)
    · rcases hc with ⟨hc, rfl⟩ | ⟨hc, rfl⟩
      · exact .inl ⟨hc.frame hj, rfl⟩
      · exact .inr ⟨hc.frame hj, rfl⟩
  | replying hi hs hc ha hroom hlen hmem hb hl hu =>
    have hj := he _ rfl
    exact .replying hi (by rw [hserver, hj.request, hj.response, hj.inbox, hj.read]; exact hs)
      (by rw [hj.client]; exact hc) (by rw [hj.awake]; exact ha) hroom hlen
      (by rw [hj.calls]; exact hans _ hmem) (hb.frame hw) (by rw [hchannel]; exact hl)
      (by rw [hunanswered]; exact hu)
  | offering hi hs ha hc hlen hmem hb hl hu =>
    have hj := he _ rfl
    exact .offering hi (by rw [hserver, hj.request]; exact hs) (by rw [hawake]; exact ha)
      (hc.frame hj) hlen (by rw [hj.calls]; exact hans _ hmem) (hb.frame hw)
      (by rw [hchannel]; exact hl) (by rw [hunanswered]; exact hu)
  | taken hi hs ha hc hlen hmem hb hl hu =>
    have hj := he _ rfl
    exact .taken hi (by rw [hserver, hj.request]; exact hs) (by rw [hawake]; exact ha)
      (by rw [hj.client, hj.response]; exact hc) hlen (by rw [hj.calls]; exact hans _ hmem)
      (hb.frame hw) (by rw [hchannel]; exact hl) (by rw [hunanswered]; exact hu)

theorem RepliesRouted.mono (h : RepliesRouted s) (hr : s'.returned = s.returned)
    (hans : ∀ a ∈ s.answers, a ∈ s'.answers) : RepliesRouted s' := by
  intro x hx
  rw [hr] at hx
  obtain ⟨hg, resp, hmem, hd⟩ := h x hx
  exact ⟨hg, resp, hans _ hmem, hd⟩

/-- Nobody is dealt with and left alone at once. -/
theorem Config.not_apart (h : Config P s e w) {j : ℕ} (hj : e = some j ∨ w = some j) :
    ¬ Apart P s j := by
  -- the phases a client is in while it is dealt with
  have hphase : (∃ req n, s.client j = .sendParked req n) ∨
      (∃ req n r, s.client j = .sendMatched req n r ∨ s.client j = .sendDelivered req n r) ∨
      (∃ n, s.client j = .recv n) ∨ (∃ n, s.client j = .recvParked n ∧ s.awake j = false) ∨
      (∃ n e g, s.client j = .recvMatched n e g ∨ s.client j = .recvDelivered n e g) := by
    have hback : ∀ {l u}, Backlog P s l u w → w = some j → ∃ req n, s.client j = .sendParked req n := by
      intro l u hb hw
      cases hb with
      | empty => cases hw
      | one _ hc _ =>
        cases hw
        exact ⟨_, _, hc⟩
    have hbefore : Before s j → (∃ req n, s.client j = .sendParked req n) ∨
        ∃ n, s.client j = .recv n := by
      rintro ⟨n, hc | ⟨req, hc, -⟩⟩
      · exact .inr ⟨n, hc⟩
      · exact .inl ⟨req, n, hc⟩
    cases h with
    | ready _ hb _ _ =>
      rcases hj with hj | hj
      · cases hj
      · exact .inl (hback hb hj)
    | parked _ _ _ _ => rcases hj with hj | hj <;> cases hj
    | taking _ _ hc _ _ _ =>
      rcases hj with hj | hj <;> cases hj
      exact .inl ⟨_, _, hc⟩
    | handing _ _ _ hc _ _ =>
      rcases hj with hj | hj <;> cases hj
      rcases hc with hc | ⟨hc, -⟩
      · exact .inr (.inl ⟨_, _, _, .inl hc⟩)
      · exact .inr (.inl ⟨_, _, _, .inr hc⟩)
    | serving _ _ hc _ _ =>
      rcases hj with hj | hj <;> cases hj
      rcases hc with ⟨hc, -⟩ | ⟨hc, -⟩
      · rcases hbefore hc with hc | hc
        · exact .inl hc
        · exact .inr (.inr (.inl hc))
      · exact .inr (.inr (.inr (.inl hc)))
    | replying _ _ hc ha _ _ _ hb _ _ =>
      rcases hj with hj | hj
      · cases hj
        exact .inr (.inr (.inr (.inl ⟨_, hc, ha⟩)))
      · exact .inl (hback hb hj)
    | offering _ _ _ hc _ _ hb _ _ =>
      rcases hj with hj | hj
      · cases hj
        rcases hbefore hc with hc | hc
        · exact .inl hc
        · exact .inr (.inr (.inl hc))
      · exact .inl (hback hb hj)
    | taken _ _ _ hc _ _ hb _ _ =>
      rcases hj with hj | hj
      · cases hj
        exact .inr (.inr (.inr (.inr ⟨_, _, _, hc⟩)))
      · exact .inl (hback hb hj)
  rintro ((hc | ⟨req, n, hc⟩) | ⟨n, resp, hc, ha, -⟩)
  · rw [hc] at hphase
    simp at hphase
  · rw [hc] at hphase
    simp at hphase
  · rw [hc, ha] at hphase
    simp at hphase

/-- A step about a client that nobody deals with, and that nobody deals with afterwards. -/
theorem Inv.of_apart (hc : Config P s e w)
    (ho : ∀ j, j ≠ P.srv → e ≠ some j → w ≠ some j → Apart P s j) {j : ℕ} (hj : Apart P s j)
    (hserver : s'.server = s.server) (hchannel : s'.channel = s.channel)
    (hunanswered : s'.unanswered = s.unanswered) (hans : s'.answers = s.answers)
    (hsrv : j ≠ P.srv) (hsame : ∀ k, k ≠ j → SameAt P s s' k) (hj' : Apart P s' j)
    (hret : RepliesRouted s') : Inv P s' := by
  have hmem : ∀ a ∈ s.answers, a ∈ s'.answers := by
    rw [hans]
    exact fun _ ha => ha
  have hne : ∀ k, e = some k ∨ w = some k → k ≠ j := by
    rintro k hk rfl
    exact hc.not_apart hk hj
  refine ⟨.inr ⟨e, w, hc.frame hserver hchannel hunanswered (hsame _ (Ne.symm hsrv)).awake
    (hsame _ (Ne.symm hsrv)).inbox hmem (fun k hk => hsame k (hne k (.inl hk)))
    (fun k hk => hsame k (hne k (.inr hk))), fun k hk hke hkw => ?_⟩, hret⟩
  by_cases hkj : k = j
  · rw [hkj]
    exact hj'
  · exact (ho k hk hke hkw).frame (hsame k hkj) hmem

/-! ## Steps of a client that is left alone -/

theorem Inv.call (h : Inv P s) (hp : s.server ≠ .panicked) {i : ℕ} (hi : i ≠ P.srv)
    (req : List (BitVec 8)) (n : ℕ) : Inv P (s.call i req n) := by
  obtain ⟨e, w, hc, ho⟩ := h.config.resolve_left hp
  unfold Rpc.call
  split
  · rename_i hidle
    refine Inv.of_apart hc ho (.inl (.inl hidle)) rfl rfl rfl rfl hi (fun k hk => ?_)
      (.inl (.inr ⟨req, n, Function.update_self ..⟩)) h.returned
    exact ⟨Function.update_of_ne hk _ _, Function.update_of_ne hk _ _, rfl, rfl, rfl⟩
  · exact h

/-- A client whose reply is in its buffer returns. -/
theorem Inv.clientReplied (h : Inv P s) (hp : s.server ≠ .panicked) {i n : ℕ} (hi : i ≠ P.srv)
    {resp : List (BitVec 8)} (hcl : s.client i = .recvParked n) (ha : s.awake i = true)
    (hin : s.inbox i = some (s.response i)) (hmem : (i, s.calls i, resp) ∈ s.answers)
    (hread : s.buffers.readBuffer (P.tid i) n = resp.take n) : Inv P (s.clientStep P i) := by
  obtain ⟨e, w, hc, ho⟩ := h.config.resolve_left hp
  have hstep : s.clientStep P i =
      s.giveBack i n (s.inbox i) (s.buffers.readBuffer (P.tid i) n) := by
    simp only [clientStep, hcl, ha, if_true]
  rw [hstep]
  refine Inv.of_apart hc ho (.inr ⟨n, resp, hcl, ha, hin, hmem, hread⟩) rfl rfl rfl rfl hi
    (fun k hk => ⟨Function.update_of_ne hk _ _, rfl, rfl, rfl, rfl⟩)
    (.inl (.inl (Function.update_self ..))) ?_
  intro x hx
  rcases List.mem_cons.mp hx with rfl | hx
  · exact ⟨hin, resp, hmem, hread⟩
  · exact h.returned x hx

/-- With no request unanswered, a client parks behind whatever is going on. -/
theorem Config.parkBehind (h : Config P s e none) (hun : s.unanswered = []) {j n : ℕ}
    {req : List (BitVec 8)} {q : List WaitEntry} {c' : ChannelInner} (hj : j ≠ P.srv)
    (hcl : s.client j = .sendParked req n) (ha : s.awake j = false)
    (hl : s.channel.Lists [] q) (hl' : c'.Lists [] (q ++ [senderEntry P j req])) :
    Config P { s with channel := c', unanswered := (j, s.calls j) :: s.unanswered } e (some j) := by
  have hback : ∀ {s' : Rpc σ}, s'.client = s.client → s'.awake = s.awake → s'.calls = s.calls →
      Backlog P s' [senderEntry P j req] [(j, s'.calls j)] (some j) := by
    intro s' h1 h2 h3
    exact .one hj (by rw [h1, hcl]) (by rw [h2, ha])
  -- the queue before, in each configuration without a backlog
  have hq : ∀ {q'}, s.channel.Lists [] q' → q = q' := fun hl'' =>
    hl.senders_eq.symm.trans hl''.senders_eq
  cases h with
  | ready hs hb hl₀ hu =>
    cases hb
    rw [hq hl₀] at hl'
    exact .ready hs (hback rfl rfl rfl) hl' (by rw [hun])
  | parked hs ha hl₀ hu =>
    have := hl.receivers_eq.symm.trans hl₀.receivers_eq
    cases this
  | taking _ _ _ _ _ hu =>
    rw [hun] at hu
    cases hu
  | handing _ _ _ _ _ hu =>
    rw [hun] at hu
    cases hu
  | serving _ _ _ _ hu =>
    rw [hun] at hu
    cases hu
  | replying hi hs hc ha hroom hlen hans hb hl₀ hu =>
    cases hb
    rw [hq hl₀] at hl'
    exact .replying hi hs hc ha hroom hlen hans (hback rfl rfl rfl) hl' (by rw [hun])
  | offering hi hs ha hc hlen hans hb hl₀ hu =>
    cases hb
    rw [hq hl₀] at hl'
    exact .offering hi hs ha hc hlen hans (hback rfl rfl rfl) hl' (by rw [hun])
  | taken hi hs ha hc hlen hans hb hl₀ hu =>
    cases hb
    rw [hq hl₀] at hl'
    exact .taken hi hs ha hc hlen hans (hback rfl rfl rfl) hl' (by rw [hun])

/-- With no request unanswered there is no backlog, and the queues are short: only the server
stands in them. -/
theorem Config.answered (h : Config P s e w) (hun : s.unanswered = []) : w = none ∧
    ((s.channel.Lists [receiverEntry P P.srv] [] ∧ e = none ∧ s.server = .recvParked ∧
        s.awake P.srv = false) ∨
      ∃ q, s.channel.Lists [] q ∧ q.length < waitQueueCap) := by
  have hback : ∀ {l u}, Backlog P s l u w → s.unanswered = u → w = none ∧ l = [] := by
    intro l u hb hu
    rw [hun] at hu
    cases hb with
    | empty => exact ⟨rfl, rfl⟩
    | one _ _ _ => cases hu
  cases h with
  | ready _ hb hl hu =>
    obtain ⟨rfl, rfl⟩ := hback hb hu
    exact ⟨rfl, .inr ⟨_, hl, by decide⟩⟩
  | parked hs ha hl _ => exact ⟨rfl, .inl ⟨hl, rfl, hs, ha⟩⟩
  | taking _ _ _ _ _ hu =>
    rw [hun] at hu
    cases hu
  | handing _ _ _ _ _ hu =>
    rw [hun] at hu
    cases hu
  | serving _ _ _ _ hu =>
    rw [hun] at hu
    cases hu
  | replying _ _ _ _ _ _ _ hb hl hu =>
    obtain ⟨rfl, rfl⟩ := hback hb hu
    exact ⟨rfl, .inr ⟨_, hl, by decide⟩⟩
  | offering _ _ _ _ _ _ hb hl hu =>
    obtain ⟨rfl, rfl⟩ := hback hb hu
    exact ⟨rfl, .inr ⟨_, hl, by simp [waitQueueCap]⟩⟩
  | taken _ _ _ _ _ _ hb hl hu =>
    obtain ⟨rfl, rfl⟩ := hback hb hu
    exact ⟨rfl, .inr ⟨_, hl, by decide⟩⟩

/-- **A client sends its request** while every earlier one has been answered. -/
theorem Inv.clientSend (h : Inv P s) (hp : s.server ≠ .panicked) {i n : ℕ} (hi : i ≠ P.srv)
    {req : List (BitVec 8)} (hcl : s.client i = .send req n)
    (hun : req.length ≤ 256 → s.unanswered = []) : Inv P (s.clientStep P i) := by
  obtain ⟨e, w, hc, ho⟩ := h.config.resolve_left hp
  have hquiet : Apart P s i := .inl (.inr ⟨req, n, hcl⟩)
  by_cases hlen : 256 < req.length
  · have hstep : s.clientStep P i = s.setClient i .idle := by
      simp only [clientStep, hcl, hlen, if_true]
    rw [hstep]
    exact Inv.of_apart hc ho hquiet rfl rfl rfl rfl hi
      (fun k hk => ⟨Function.update_of_ne hk _ _, rfl, rfl, rfl, rfl⟩)
      (.inl (.inl (Function.update_self ..))) h.returned
  have hun := hun (by omega)
  obtain ⟨rfl, ⟨hl, rfl, hs, ha⟩ | ⟨q, hl, hq⟩⟩ := hc.answered hun
  · -- the server is waiting for it
    obtain ⟨c', hm, hl'⟩ := hl.matchSender_cons (P.tid i) (sentMessage req)
    have hstep : s.clientStep P i = setClient { s with
        channel := c', unanswered := (i, s.calls i) :: s.unanswered } i
        (.sendMatched req n (P.tid P.srv)) := by
      simp only [clientStep, hcl, hlen, if_false, hm, receiverEntry]
    rw [hstep]
    refine ⟨.inr ⟨some i, none, .handing hi hs ha (.inl (Function.update_self ..)) hl'
      (by simp [setClient, hun]), fun k hk hke _ => ?_⟩, h.returned⟩
    have hki : k ≠ i := fun hki => hke (by rw [hki])
    exact (ho k hk (by simp) (by simp)).frame
      ⟨Function.update_of_ne hki _ _, rfl, rfl, rfl, rfl⟩ fun _ ha => ha
  · -- nobody waits to receive
    obtain ⟨c', hm, hl'⟩ := hl.matchSender_nil hq (P.tid i) (sentMessage req)
    have hstep : s.clientStep P i = { (s.setClient i (.sendParked req n)).setAwake i false with
        channel := c', unanswered := (i, s.calls i) :: s.unanswered } := by
      simp only [clientStep, hcl, hlen, if_false, hm, setClient, setAwake]
    have hsame : ∀ k, k ≠ i →
        SameAt P s ((s.setClient i (.sendParked req n)).setAwake i false) k := fun k hk =>
      ⟨Function.update_of_ne hk _ _, rfl, Function.update_of_ne hk _ _, rfl, rfl⟩
    have hne : ∀ k, e = some k → k ≠ i := by
      rintro k hk rfl
      exact hc.not_apart (.inl hk) hquiet
    have hc₁ : Config P ((s.setClient i (.sendParked req n)).setAwake i false) e none :=
      hc.frame rfl rfl rfl (hsame _ (Ne.symm hi)).awake rfl (fun _ ha => ha)
        (fun k hk => hsame k (hne k hk)) (fun k hk => by cases hk)
    rw [hstep]
    refine ⟨.inr ⟨e, some i, hc₁.parkBehind hun hi (Function.update_self ..)
      (Function.update_self ..) hl hl', fun k hk hke hkw => ?_⟩, h.returned⟩
    have hki : k ≠ i := fun hki => hkw (by rw [hki])
    exact (ho k hk hke (by simp)).frame
      ⟨Function.update_of_ne hki _ _, rfl, Function.update_of_ne hki _ _, rfl, rfl⟩ fun _ ha => ha

/-! ## Steps of the client the server deals with -/

/-- A delivery to one slot is seen by nobody else. -/
theorem sameAt_deliver (msg : Message) (g : Option Tag) {i k : ℕ} (hk : k ≠ i) :
    SameAt P s (s.deliver msg g (P.tid i)) k where
  client := rfl
  calls := rfl
  awake := rfl
  inbox := Function.update_of_ne hk _ _
  read := by
    funext n
    exact IpcBufferTable.readBuffer_delivered_of_ne s.buffers msg hk n

theorem SameAt.setClient {i k : ℕ} (h : SameAt P s s' k) (hk : k ≠ i) (ph : ClientPhase) :
    SameAt P s (s'.setClient i ph) k :=
  ⟨(Function.update_of_ne hk _ _).trans h.client, h.calls, h.awake, h.inbox, h.read⟩

theorem SameAt.setAwake {i k : ℕ} (h : SameAt P s s' k) (hk : k ≠ i) (b : Bool) :
    SameAt P s (s'.setAwake i b) k :=
  ⟨h.client, h.calls, (Function.update_of_ne hk _ _).trans h.awake, h.inbox, h.read⟩

theorem SameAt.refl (k : ℕ) : SameAt P s s k := ⟨rfl, rfl, rfl, rfl, rfl⟩

/-- The other clients do not notice. -/
theorem others_frame (ho : ∀ j, j ≠ P.srv → e ≠ some j → w ≠ some j → Apart P s j)
    {e' w' : Option ℕ} (hans : ∀ a ∈ s.answers, a ∈ s'.answers)
    (hsame : ∀ k, k ≠ P.srv → e' ≠ some k → w' ≠ some k →
      (e ≠ some k ∧ w ≠ some k ∧ SameAt P s s' k) ∨ Apart P s' k) :
    ∀ j, j ≠ P.srv → e' ≠ some j → w' ≠ some j → Apart P s' j := by
  intro j hj hje hjw
  rcases hsame j hj hje hjw with ⟨h1, h2, h3⟩ | h
  · exact (ho j hj h1 h2).frame h3 hans
  · exact h

/-- Clients that nobody dealt with stay as they are. -/
theorem others_keep (ho : ∀ j, j ≠ P.srv → e ≠ some j → w ≠ some j → Apart P s j)
    (hans : ∀ a ∈ s.answers, a ∈ s'.answers)
    (hsame : ∀ k, k ≠ P.srv → e ≠ some k → w ≠ some k → SameAt P s s' k) :
    ∀ j, j ≠ P.srv → e ≠ some j → w ≠ some j → Apart P s' j :=
  others_frame ho hans fun k hk hke hkw => .inl ⟨hke, hkw, hsame k hk hke hkw⟩

/-- The same, after a step about the client that is dealt with. -/
theorem others_keep_but {i : ℕ} (ho : ∀ j, j ≠ P.srv → some i ≠ some j → w ≠ some j → Apart P s j)
    (hans : s'.answers = s.answers) (hsame : ∀ k, k ≠ P.srv → k ≠ i → SameAt P s s' k) :
    ∀ j, j ≠ P.srv → some i ≠ some j → w ≠ some j → Apart P s' j := by
  refine others_keep ho (by rw [hans]; exact fun _ ha => ha) fun k hk hke _ => ?_
  exact hsame k hk fun hki => hke (by rw [hki])

section ClientStep

variable {i n : ℕ} {l rs : List WaitEntry} {u : List (ℕ × ℕ)} (hr : RepliesRouted s)

/-- A woken sender goes on to its receive. -/
theorem clientStep_woken {req : List (BitVec 8)} (hc : s.client i = .sendParked req n)
    (ha : s.awake i = true) : s.clientStep P i = s.setClient i (.recv n) := by
  simp only [clientStep, hc, ha, if_true]

include hr

/-- The client hands its request to the waiting server. -/
theorem Inv.clientStep_handing {req : List (BitVec 8)} (hi : i ≠ P.srv)
    (hs : s.server = .recvParked) (ha : s.awake P.srv = false)
    (hc : s.client i = .sendMatched req n (P.tid P.srv) ∨
      (s.client i = .sendDelivered req n (P.tid P.srv) ∧ s.inbox P.srv = some (s.request i)))
    (hl : s.channel.Lists [] []) (hu : s.unanswered = [(i, s.calls i)])
    (ho : ∀ j, j ≠ P.srv → some i ≠ some j → none ≠ some j → Apart P s j) :
    Inv P (s.clientStep P i) := by
  rcases hc with hc | ⟨hc, hin⟩
  · have hstep : s.clientStep P i = (s.deliver (sentMessage req) (some (s.request i))
        (P.tid P.srv)).setClient i (.sendDelivered req n (P.tid P.srv)) := by
      simp only [clientStep, hc, request]
    rw [hstep]
    refine ⟨.inr ⟨some i, none, .handing hi hs ha
      (.inr ⟨Function.update_self .., Function.update_self ..⟩) hl hu, ?_⟩, hr⟩
    exact others_keep_but ho rfl fun k hk hki => (sameAt_deliver _ _ hk).setClient hki _
  · have hstep : s.clientStep P i = (s.setAwake P.srv true).setClient i (.recv n) := by
      simp only [clientStep, hc]
      rfl
    rw [hstep]
    refine ⟨.inr ⟨some i, none, .serving hi (.inl ⟨hs, Function.update_self .., hin⟩)
      (.inl ⟨⟨n, .inl (Function.update_self ..)⟩, rfl⟩) hl hu, ?_⟩, hr⟩
    exact others_keep_but ho rfl fun k hk hki => ((SameAt.refl k).setAwake hk true).setClient hki _

/-- The client comes to its receive while the server has its request. -/
theorem Inv.clientStep_before (hi : i ≠ P.srv) (hs : Serving P s i) (hc : Before s i)
    (hl : s.channel.Lists [] []) (hu : s.unanswered = [(i, s.calls i)])
    (ho : ∀ j, j ≠ P.srv → some i ≠ some j → none ≠ some j → Apart P s j) :
    Inv P (s.clientStep P i) := by
  rcases hc with ⟨n, hc | ⟨req, hc, ha⟩⟩
  · obtain ⟨c', hm, hl'⟩ := hl.matchReceiver_nil (by decide) (P.tid i)
    have hstep : s.clientStep P i =
        (setClient { s with channel := c' } i (.recvParked n)).setAwake i false := by
      simp only [clientStep, hc, hm]
    rw [hstep]
    refine ⟨.inr ⟨some i, none, .serving hi ?_
      (.inr ⟨⟨n, Function.update_self .., Function.update_self ..⟩, rfl⟩) hl' hu, ?_⟩, hr⟩
    · rcases hs with ⟨h1, h2, h3⟩ | hs
      · exact .inl ⟨h1, (Function.update_of_ne (Ne.symm hi) _ _).trans h2, h3⟩
      · exact .inr hs
    · exact others_keep_but ho rfl fun k _ hki =>
        ⟨Function.update_of_ne hki _ _, rfl, Function.update_of_ne hki _ _, rfl, rfl⟩
  · rw [clientStep_woken hc ha]
    refine ⟨.inr ⟨some i, none, .serving hi hs
      (.inl ⟨⟨n, .inl (Function.update_self ..)⟩, rfl⟩) hl hu, ?_⟩, hr⟩
    exact others_keep_but ho rfl fun k _ hki => (SameAt.refl k).setClient hki _

/-- The client comes to its receive while the server waits to send the reply. -/
theorem Inv.clientStep_offering {resp : List (BitVec 8)} (hi : i ≠ P.srv)
    (hs : s.server = .sendParked resp (some (s.request i))) (ha : s.awake P.srv = false)
    (hc : Before s i) (hlen : IsResponse resp) (hans : (i, s.calls i, resp) ∈ s.answers)
    (hb : Backlog P s l u w) (hl : s.channel.Lists [] (senderEntry P P.srv resp :: l))
    (hu : s.unanswered = u)
    (ho : ∀ j, j ≠ P.srv → some i ≠ some j → w ≠ some j → Apart P s j) :
    Inv P (s.clientStep P i) := by
  have hwi : ∀ k, w = some k → k ≠ i := by
    rintro k hk rfl
    cases hb with
    | empty => cases hk
    | one _ hcb hab =>
      cases hk
      rcases hc with ⟨n, hc | ⟨req, -, hai⟩⟩
      · rw [hcb] at hc
        cases hc
      · rw [hab] at hai
        cases hai
  rcases hc with ⟨n, hc | ⟨req, hc, hai⟩⟩
  · obtain ⟨c', hm, hl'⟩ := hl.matchReceiver_cons (P.tid i)
    have hout : s.outgoing P P.srv = some (s.response i) := by
      simp only [outgoing, if_true, hs, Option.map_some, request, response, Tag.reply]
    have hstep : s.clientStep P i = setClient { s with channel := c' } i
        (.recvMatched n (senderEntry P P.srv resp) (some (s.response i))) := by
      have hidx : (senderEntry P P.srv resp).threadId.index = P.srv := rfl
      simp only [clientStep, hc, hm, hidx, hout]
    rw [hstep]
    refine ⟨.inr ⟨some i, w, .taken hi hs ha (.inl (Function.update_self ..)) hlen hans
      (hb.frame fun k hk => ⟨Function.update_of_ne (hwi k hk) _ _, rfl, rfl, rfl, rfl⟩) hl' hu, ?_⟩,
      hr⟩
    exact others_keep_but ho rfl fun k _ hki => ⟨Function.update_of_ne hki _ _, rfl, rfl, rfl, rfl⟩
  · rw [clientStep_woken hc hai]
    refine ⟨.inr ⟨some i, w, .offering hi hs ha ⟨n, .inl (Function.update_self ..)⟩ hlen hans
      (hb.frame fun k hk => (SameAt.refl k).setClient (hwi k hk) _) hl hu, ?_⟩, hr⟩
    exact others_keep_but ho rfl fun k _ hki => (SameAt.refl k).setClient hki _

/-- The client takes the reply, and returns with it. -/
theorem Inv.clientStep_taken {resp : List (BitVec 8)} (hi : i ≠ P.srv)
    (hs : s.server = .sendParked resp (some (s.request i))) (ha : s.awake P.srv = false)
    (hc : s.client i = .recvMatched n (senderEntry P P.srv resp) (some (s.response i)) ∨
      s.client i = .recvDelivered n (senderEntry P P.srv resp) (some (s.response i)))
    (hlen : IsResponse resp) (hans : (i, s.calls i, resp) ∈ s.answers)
    (hb : Backlog P s l u w) (hl : s.channel.Lists [] l) (hu : s.unanswered = u)
    (ho : ∀ j, j ≠ P.srv → some i ≠ some j → w ≠ some j → Apart P s j) :
    Inv P (s.clientStep P i) := by
  have hwi : ∀ k, w = some k → k ≠ P.srv ∧ k ≠ i := by
    intro k hk
    cases hb with
    | empty => cases hk
    | one hbs hcb _ =>
      cases hk
      refine ⟨hbs, ?_⟩
      rintro rfl
      rcases hc with hc | hc <;> rw [hcb] at hc <;> cases hc
  rcases hc with hc | hc
  · have hstep : s.clientStep P i = (s.deliver (sentMessage resp) (some (s.response i))
        (P.tid i)).setClient i
          (.recvDelivered n (senderEntry P P.srv resp) (some (s.response i))) := by
      simp only [clientStep, hc]
      rfl
    rw [hstep]
    refine ⟨.inr ⟨some i, w, .taken hi hs ha (.inr (Function.update_self ..)) hlen hans
      (hb.frame fun k hk => (sameAt_deliver _ _ (hwi k hk).2).setClient (hwi k hk).2 _) hl hu, ?_⟩,
      hr⟩
    exact others_keep_but ho rfl fun k _ hki => (sameAt_deliver _ _ hki).setClient hki _
  · have hstep : s.clientStep P i = (s.setAwake P.srv true).giveBack i n (some (s.response i))
        (resp.take n) := by
      simp only [clientStep, hc]
      show (s.setAwake P.srv true).giveBack i n (some (s.response i))
        (unpackShort (packShort resp) n) = _
      rw [unpackShort_packShort resp hlen.1]
    rw [hstep]
    have hsame : ∀ k, k ≠ P.srv → k ≠ i → SameAt P s ((s.setAwake P.srv true).giveBack i n
        (some (s.response i)) (resp.take n)) k := fun k hk hki =>
      ⟨Function.update_of_ne hki _ _, rfl, Function.update_of_ne hk _ _, rfl, rfl⟩
    refine ⟨.inr ⟨none, w, .ready (.inr ⟨resp, _, hs, Function.update_self ..⟩)
      (hb.frame fun k hk => hsame k (hwi k hk).1 (hwi k hk).2) hl hu, ?_⟩, ?_⟩
    · refine others_frame ho (fun _ ha => ha) fun k hk _ hkw => ?_
      by_cases hki : k = i
      · refine .inr (.inl (.inl ?_))
        rw [hki]
        exact Function.update_self ..
      · exact .inl ⟨fun hik => hki (Option.some.inj hik).symm, hkw, hsame k hk hki⟩
    · intro x hx
      rcases List.mem_cons.mp hx with rfl | hx
      · exact ⟨rfl, resp, hans, rfl⟩
      · exact hr x hx

end ClientStep

/-- **The client that the server deals with takes a step.** -/
theorem Inv.clientEngaged (h : Inv P s) {i : ℕ} (hc : Config P s (some i) w)
    (ho : ∀ j, j ≠ P.srv → some i ≠ some j → w ≠ some j → Apart P s j) :
    Inv P (s.clientStep P i) := by
  -- a client that waits for a wake stays where it is
  have hstay : (∃ req n, s.client i = .sendParked req n) ∨ (∃ n, s.client i = .recvParked n) →
      s.awake i = false → Inv P (s.clientStep P i) := by
    rintro (⟨req, n, hcl⟩ | ⟨n, hcl⟩) ha
    · simp only [clientStep, hcl, ha, Bool.false_eq_true, if_false]
      exact h
    · simp only [clientStep, hcl, ha, Bool.false_eq_true, if_false]
      exact h
  have hr := h.returned
  cases hc with
  | taking hi hs hc ha hl hu => exact hstay (.inl ⟨_, _, hc⟩) ha
  | handing hi hs ha hc hl hu => exact Inv.clientStep_handing hr hi hs ha hc hl hu ho
  | serving hi hs hc hl hu =>
    rcases hc with ⟨hc, rfl⟩ | ⟨⟨n, hc, ha⟩, rfl⟩
    · exact Inv.clientStep_before hr hi hs hc hl hu ho
    · exact hstay (.inr ⟨n, hc⟩) ha
  | replying hi hs hc ha hroom hlen hans hb hl hu => exact hstay (.inr ⟨_, hc⟩) ha
  | offering hi hs ha hc hlen hans hb hl hu =>
    exact Inv.clientStep_offering hr hi hs ha hc hlen hans hb hl hu ho
  | taken hi hs ha hc hlen hans hb hl hu =>
    exact Inv.clientStep_taken hr hi hs ha hc hlen hans hb hl hu ho

/-! ## Steps of the server -/

/-- The length of the receive buffer of a client that waits for its reply. -/
def listenerBuf (s : Rpc σ) (i : ℕ) : Option ℕ :=
  match s.client i with
  | .recvParked n => some n
  | _ => none

section ServerStep

variable {i n : ℕ} {l rs : List WaitEntry} {u : List (ℕ × ℕ)} (hr : RepliesRouted s)

include hr

/-- The server asks for the next request, or leaves a `send` it was woken from. -/
theorem Inv.serverStep_ready
    (hs : s.server = .recv ∨ ∃ resp g, s.server = .sendParked resp g ∧ s.awake P.srv = true)
    (hb : Backlog P s l u w) (hl : s.channel.Lists [] l) (hu : s.unanswered = u)
    (ho : ∀ j, j ≠ P.srv → none ≠ some j → w ≠ some j → Apart P s j) : Inv P (s.serverStep P) := by
  rcases hs with hs | ⟨resp, g, hs, ha⟩
  · cases hb with
    | empty =>
      obtain ⟨c', hm, hl'⟩ := hl.matchReceiver_nil (by decide) (P.tid P.srv)
      have hstep : s.serverStep P =
          setAwake { s with channel := c', server := .recvParked } P.srv false := by
        simp only [Rpc.serverStep, hs, hm]
      rw [hstep]
      refine ⟨.inr ⟨none, none, .parked rfl (Function.update_self ..) hl' hu,
        others_keep ho (fun _ ha => ha) fun k hk _ _ => ?_⟩, hr⟩
      exact ⟨rfl, rfl, Function.update_of_ne hk _ _, rfl, rfl⟩
    | @one b n req hb hc ha =>
      obtain ⟨c', hm, hl'⟩ := hl.matchReceiver_cons (P.tid P.srv)
      have hout : s.outgoing P (senderEntry P b req).threadId.index = some (s.request b) :=
        if_neg hb
      have hstep : s.serverStep P = { s with
          channel := c'
          server := .recvMatched (senderEntry P b req) (some (s.request b)) } := by
        simp only [Rpc.serverStep, hs, hm, hout]
      rw [hstep]
      refine ⟨.inr ⟨some b, none, .taking hb (.inl rfl) hc ha hl' hu,
        others_frame ho (fun _ ha => ha) fun k _ hke _ => .inl ⟨by simp, hke, ?_⟩⟩, hr⟩
      exact ⟨rfl, rfl, rfl, rfl, rfl⟩
  · have hstep : s.serverStep P = { s with server := .recv } := by
      simp only [Rpc.serverStep, hs, ha, if_true]
    rw [hstep]
    exact ⟨.inr ⟨none, w, .ready (.inl rfl) (hb.frame fun k _ => ⟨rfl, rfl, rfl, rfl, rfl⟩) hl hu,
      others_keep ho (fun _ ha => ha) fun k _ _ _ => ⟨rfl, rfl, rfl, rfl, rfl⟩⟩, hr⟩

/-- The server takes a parked request over. -/
theorem Inv.serverStep_taking {req : List (BitVec 8)} (hi : i ≠ P.srv)
    (hs : s.server = .recvMatched (senderEntry P i req) (some (s.request i)) ∨
      s.server = .recvDelivered (senderEntry P i req) (some (s.request i)))
    (hc : s.client i = .sendParked req n) (ha : s.awake i = false) (hl : s.channel.Lists [] [])
    (hu : s.unanswered = [(i, s.calls i)])
    (ho : ∀ j, j ≠ P.srv → some i ≠ some j → none ≠ some j → Apart P s j) :
    Inv P (s.serverStep P) := by
  rcases hs with hs | hs
  · have hstep : s.serverStep P = { s.deliver (sentMessage req) (some (s.request i))
        (P.tid P.srv) with
          server := .recvDelivered (senderEntry P i req) (some (s.request i)) } := by
      simp only [Rpc.serverStep, hs]
      rfl
    rw [hstep]
    refine ⟨.inr ⟨some i, none, .taking hi (.inr rfl) hc ha hl hu,
      others_keep ho (fun _ ha => ha) fun k hk _ _ => ?_⟩, hr⟩
    have hsame := sameAt_deliver (P := P) (s := s) (sentMessage req) (some (s.request i)) hk
    exact ⟨hsame.client, hsame.calls, hsame.awake, hsame.inbox, hsame.read⟩
  · have hstep : s.serverStep P = (s.setAwake i true).takeUp
        (kernelBytes (sentMessage req)) (some (s.request i)) := by
      simp only [Rpc.serverStep, hs]
      rfl
    rw [hstep]
    refine ⟨.inr ⟨some i, none, .serving hi (.inr (.inl ⟨_, rfl⟩))
      (.inl ⟨⟨n, .inr ⟨req, hc, Function.update_self ..⟩⟩, rfl⟩) hl hu,
      others_keep ho (fun _ ha => ha) fun k _ hke _ => ?_⟩, hr⟩
    have hki : k ≠ i := fun hki => hke (by rw [hki])
    exact ⟨rfl, rfl, Function.update_of_ne hki _ _, rfl, rfl⟩

/-- The server reads a request, answers it, or begins to send the answer. -/
theorem Inv.serverStep_serving (hi : i ≠ P.srv) (hs : Serving P s i)
    (hc : (Before s i ∧ rs = []) ∨ (Listening s i ∧ rs = [receiverEntry P i]))
    (hl : s.channel.Lists rs []) (hu : s.unanswered = [(i, s.calls i)])
    (hroom : ∀ resp g r n, s.server = .send resp g →
      (s.channel.receiverQueue.pop waitQueueCap).1 = some r →
      s.listenerBuf r.threadId.index = some n →
      r.threadId.index < maxThreadBuffers ∨ n = 0)
    (ho : ∀ j, j ≠ P.srv → some i ≠ some j → none ≠ some j → Apart P s j) :
    Inv P (s.serverStep P) := by
  rcases hs with ⟨hs, ha, hin⟩ | ⟨req, hs⟩ | ⟨resp, hs, hlen, hans⟩
  · -- the request is in the server's buffer, if it has one
    have htake : ∀ req, Inv P (s.takeUp req (s.inbox P.srv)) := by
      intro req
      rw [hin]
      exact ⟨.inr ⟨some i, none, .serving hi (.inr (.inl ⟨req, rfl⟩)) hc hl hu,
        others_keep ho (fun _ ha => ha) fun k _ _ _ => ⟨rfl, rfl, rfl, rfl, rfl⟩⟩, hr⟩
    simp only [Rpc.serverStep, hs, ha, if_true]
    split
    · exact ⟨.inl rfl, hr⟩
    · split <;> exact htake _
  · set d := P.dispatch s.fs req with hd
    have hstep : s.serverStep P = { s with
        answers := (i, s.calls i, d.2.1) :: s.answers
        fs := d.1
        server := .send d.2.1 (some (s.request i)) } := by
      simp only [Rpc.serverStep, hs, record, request, ← hd]
    rw [hstep]
    have hmem : ∀ a ∈ s.answers, a ∈ (i, s.calls i, d.2.1) :: s.answers := fun a ha =>
      List.mem_cons_of_mem _ ha
    exact ⟨.inr ⟨some i, none, .serving hi
        (.inr (.inr ⟨d.2.1, rfl, d.2.2, List.mem_cons_self⟩)) hc hl hu,
      others_keep ho hmem fun k _ _ _ => ⟨rfl, rfl, rfl, rfl, rfl⟩⟩, hr.mono rfl hmem⟩
  · have hsettle : s.settle (some (s.request i)) = { s with unanswered := [] } := by
      simp [settle, hu, request]
    rcases hc with ⟨hc, rfl⟩ | ⟨⟨n, hc, hai⟩, rfl⟩
    · -- the client has not come to its receive: the server parks
      obtain ⟨c', hm, hl'⟩ := hl.matchSender_nil (by decide) (P.tid P.srv) (sentMessage resp)
      have hstep : s.serverStep P = setAwake { s with
          unanswered := [], channel := c'
          server := .sendParked resp (some (s.request i)) } P.srv false := by
        simp only [Rpc.serverStep, hs, hm, hsettle]
      rw [hstep]
      refine ⟨.inr ⟨some i, none, .offering hi rfl (Function.update_self ..) ?_ hlen hans .empty
        hl' rfl, others_keep ho (fun _ ha => ha) fun k hk _ _ => ?_⟩, hr⟩
      · obtain ⟨n, hc | ⟨req, hc, hai⟩⟩ := hc
        · exact ⟨n, .inl hc⟩
        · exact ⟨n, .inr ⟨req, hc, (Function.update_of_ne hi _ _).trans hai⟩⟩
      · exact ⟨rfl, rfl, Function.update_of_ne hk _ _, rfl, rfl⟩
    · -- the client is waiting
      obtain ⟨c', hm, hl'⟩ := hl.matchSender_cons (P.tid P.srv) (sentMessage resp)
      have hstep : s.serverStep P = { s with
          unanswered := [], channel := c'
          server := .sendMatched resp (some (s.request i)) (P.tid i) } := by
        simp only [Rpc.serverStep, hs, hm, hsettle]
        rfl
      have hfits : i < maxThreadBuffers ∨ n = 0 := by
        obtain ⟨q, hpop, -⟩ := Ring.pop_cons hl.receivers hl.receivers_eq
        exact hroom resp _ (receiverEntry P i) n hs (by rw [hpop])
          (by simp only [listenerBuf, receiverEntry, Setup.tid, hc])
      rw [hstep]
      exact ⟨.inr ⟨some i, none, .replying hi (.inl rfl) hc hai hfits hlen hans .empty hl' rfl,
        others_keep ho (fun _ ha => ha) fun k _ _ _ => ⟨rfl, rfl, rfl, rfl, rfl⟩⟩, hr⟩

/-- The server puts the reply into the client's buffer, or is done with it. -/
theorem Inv.serverStep_replying {resp : List (BitVec 8)} (hi : i ≠ P.srv)
    (hs : s.server = .sendMatched resp (some (s.request i)) (P.tid i) ∨
      (s.server = .sendDelivered resp (some (s.request i)) (P.tid i) ∧
        s.inbox i = some (s.response i) ∧ s.buffers.readBuffer (P.tid i) n = resp.take n))
    (hc : s.client i = .recvParked n) (ha : s.awake i = false)
    (hfits : i < maxThreadBuffers ∨ n = 0) (hlen : IsResponse resp)
    (hans : (i, s.calls i, resp) ∈ s.answers) (hb : Backlog P s l u w)
    (hl : s.channel.Lists [] l) (hu : s.unanswered = u)
    (ho : ∀ j, j ≠ P.srv → some i ≠ some j → w ≠ some j → Apart P s j) :
    Inv P (s.serverStep P) := by
  have hwi : ∀ k, w = some k → k ≠ i := by
    rintro k hk rfl
    cases hb with
    | empty => cases hk
    | one _ hcb _ =>
      cases hk
      rw [hcb] at hc
      cases hc
  rcases hs with hs | ⟨hs, hin, hread⟩
  · have hstep : s.serverStep P = { s.deliver (sentMessage resp) (some (s.response i))
        (P.tid i) with server := .sendDelivered resp (some (s.request i)) (P.tid i) } := by
      simp only [Rpc.serverStep, hs]
      rfl
    rw [hstep]
    have hsame : ∀ k, k ≠ i → SameAt P s { s.deliver (sentMessage resp) (some (s.response i))
        (P.tid i) with server := .sendDelivered resp (some (s.request i)) (P.tid i) } k := by
      intro k hk
      have := sameAt_deliver (P := P) (s := s) (sentMessage resp) (some (s.response i)) hk
      exact ⟨this.client, this.calls, this.awake, this.inbox, this.read⟩
    have hgets : (s.buffers.delivered (sentMessage resp) (P.tid i)).readBuffer (P.tid i) n =
        resp.take n := by
      refine (IpcBufferTable.readBuffer_deliver s.buffers 1 resp hlen.1 (P.tid i) n).trans ?_
      rw [received_eq_take_iff]
      rcases hfits with hfits | hfits
      · exact .inr (.inr ⟨hfits, .inl hlen.2⟩)
      · exact .inr (.inl hfits)
    refine ⟨.inr ⟨some i, w, .replying hi (.inr ⟨rfl, Function.update_self .., hgets⟩) hc ha hfits
      hlen hans (hb.frame fun k hk => hsame k (hwi k hk)) hl hu,
      others_keep ho (fun _ ha => ha) fun k _ hke _ => hsame k fun hki => hke (by rw [hki])⟩, hr⟩
  · have hstep : s.serverStep P = { s.setAwake i true with server := .recv } := by
      simp only [Rpc.serverStep, hs]
      rfl
    rw [hstep]
    have hsame : ∀ k, k ≠ i → SameAt P s { s.setAwake i true with server := .recv } k :=
      fun k hk => ⟨rfl, rfl, Function.update_of_ne hk _ _, rfl, rfl⟩
    refine ⟨.inr ⟨none, w, .ready (.inl rfl) (hb.frame fun k hk => hsame k (hwi k hk)) hl hu,
      others_frame ho (fun _ ha => ha) fun k _ _ hkw => ?_⟩, hr⟩
    by_cases hki : k = i
    · rw [hki]
      exact .inr (.inr ⟨n, resp, hc, Function.update_self .., hin, hans, hread⟩)
    · exact .inl ⟨fun hik => hki (Option.some.inj hik).symm, hkw, hsame k hki⟩

end ServerStep

/-- **The server takes a step.**  When it is about to send to a waiting client, the client has one
of the 32 buffers, or no room for bytes anyway. -/
theorem Inv.serverStep (h : Inv P s) (hp : s.server ≠ .panicked)
    (hroom : ∀ resp g r n, s.server = .send resp g →
      (s.channel.receiverQueue.pop waitQueueCap).1 = some r →
      s.listenerBuf r.threadId.index = some n →
      r.threadId.index < maxThreadBuffers ∨ n = 0) : Inv P (s.serverStep P) := by
  obtain ⟨e, w, hc, ho⟩ := h.config.resolve_left hp
  have hr := h.returned
  -- a server that waits for a wake stays where it is
  have hstay : (s.server = .recvParked ∨ ∃ resp g, s.server = .sendParked resp g) →
      s.awake P.srv = false → Inv P (s.serverStep P) := by
    rintro (hs | ⟨resp, g, hs⟩) ha
    · simp only [Rpc.serverStep, hs, ha, Bool.false_eq_true, if_false]
      exact h
    · simp only [Rpc.serverStep, hs, ha, Bool.false_eq_true, if_false]
      exact h
  cases hc with
  | ready hs hb hl hu => exact Inv.serverStep_ready hr hs hb hl hu ho
  | parked hs ha => exact hstay (.inl hs) ha
  | taking hi hs hc ha hl hu => exact Inv.serverStep_taking hr hi hs hc ha hl hu ho
  | handing _ hs ha => exact hstay (.inl hs) ha
  | serving hi hs hc hl hu => exact Inv.serverStep_serving hr hi hs hc hl hu hroom ho
  | replying hi hs hc ha hfits hlen hans hb hl hu =>
    exact Inv.serverStep_replying hr hi hs hc ha hfits hlen hans hb hl hu ho
  | offering _ hs ha => exact hstay (.inr ⟨_, _, hs⟩) ha
  | taken _ hs ha => exact hstay (.inr ⟨_, _, hs⟩) ha

/-! ## Runs -/

/-- The condition on a step.
* A client sends its request only when every earlier request has been answered.
* The server sends to a waiting client only if it has one of the 32 receive buffers, or asked for
  no bytes. -/
def orderly (s : Rpc σ) : Move → Bool
  | .call _ _ _ => true
  | .client i =>
      match s.client i with
      | .send req _ => decide (256 < req.length) || s.unanswered.isEmpty
      | _ => true
  | .server =>
      match s.server with
      | .send _ _ => (s.channel.receiverQueue.pop waitQueueCap).1.all fun r =>
          decide (r.threadId.index < maxThreadBuffers) ||
            (s.listenerBuf r.threadId.index).all (· == 0)
      | _ => true

/-- The client behind waits. -/
theorem Config.behind_stays {i : ℕ} (h : Config P s e (some i)) : s.clientStep P i = s := by
  have hback : ∀ {l u}, Backlog P s l u (some i) → s.clientStep P i = s := by
    intro l u hb
    cases hb with
    | one _ hc ha => simp only [clientStep, hc, ha, Bool.false_eq_true, if_false]
  cases h with
  | ready _ hb _ _ => exact hback hb
  | replying _ _ _ _ _ _ _ hb _ _ => exact hback hb
  | offering _ _ _ _ _ _ hb _ _ => exact hback hb
  | taken _ _ _ _ _ _ hb _ _ => exact hback hb

/-- **Every orderly step keeps the invariant.** -/
theorem inv_step (s : Rpc σ) (m : Move) (h : Inv P s) (hm : s.orderly m = true) :
    Inv P (s.step P m) := by
  by_cases hp : s.server = .panicked
  · unfold step
    rw [hp]
    exact h
  cases m with
  | server =>
    have hstep : s.step P .server = s.serverStep P := by
      unfold step
      cases hs : s.server <;> first | rfl | exact absurd hs hp
    rw [hstep]
    refine h.serverStep hp fun resp g r n hs hpop hbuf => ?_
    simp only [orderly, hs, hpop, Option.all_some, hbuf, Bool.or_eq_true, decide_eq_true_eq,
      beq_iff_eq] at hm
    exact hm
  | call i req n =>
    have hstep : s.step P (.call i req n) = if i = P.srv then s else s.call i req n := by
      unfold step
      cases hs : s.server <;> first | rfl | exact absurd hs hp
    rw [hstep]
    split
    · exact h
    · rename_i hi
      exact h.call hp hi req n
  | client i =>
    have hstep : s.step P (.client i) = if i = P.srv then s else s.clientStep P i := by
      unfold step
      cases hs : s.server <;> first | rfl | exact absurd hs hp
    rw [hstep]
    split
    · exact h
    rename_i hi
    obtain ⟨e, w, hc, ho⟩ := h.config.resolve_left hp
    by_cases he : e = some i
    · subst he
      exact h.clientEngaged hc ho
    by_cases hw : w = some i
    · subst hw
      rw [hc.behind_stays]
      exact h
    rcases ho i hi he hw with (hcl | ⟨req, n, hcl⟩) | ⟨n, resp, hcl, ha, hin, hmem, hread⟩
    · simp only [clientStep, hcl]
      exact h
    · refine h.clientSend hp hi hcl fun hlen => ?_
      simp only [orderly, hcl, Bool.or_eq_true, decide_eq_true_eq, List.isEmpty_iff] at hm
      rcases hm with hm | hm
      · omega
      · exact hm
    · exact h.clientReplied hp hi hcl ha hin hmem hread

theorem inv_init (fs : σ) : Inv P (init fs) where
  config := .inr ⟨none, none, .ready (.inl rfl) .empty ChannelInner.lists_new rfl,
    fun _ _ _ _ => .inl (.inl rfl)⟩
  returned x hx := by cases hx

/-- The state after a sequence of steps. -/
def run (P : Setup σ) (fs : σ) (ms : List Move) : Rpc σ := Run.exec (step P) (init fs) ms

end Rpc

open Rpc

/-- A server that answers everything with the same 256 bytes. -/
def mute : Setup Unit where
  srv := 0
  gen _ := 1
  dispatch _ _ := ((), ⟨List.replicate 256 7, by rw [IsResponse, List.length_replicate]; decide⟩)

/-- Client 1 hands its request to the waiting server and waits for the reply; before the server
runs, client 2 sends. -/
def crossed : List Move :=
  [.server, .call 1 [1, 2] 4, .client 1, .client 1, .client 1, .client 1,
    .call 2 [9, 9] 4, .client 2, .client 2, .client 2, .client 1]

/-- **A client receives another client's request** as its reply. -/
theorem crossed_misrouted : ¬ RepliesRouted (run mute () crossed) := by
  intro h
  have hret : (run mute () crossed).returned =
      [⟨1, 1, 4, some ⟨false, 2, 1⟩, [9, 9, 0, 0]⟩] := by decide +kernel
  have hg := (h ⟨1, 1, 4, some ⟨false, 2, 1⟩, [9, 9, 0, 0]⟩ (by rw [hret]; simp)).1
  cases hg

/-- **Replies find their client.**  In every run of the server and any number of clients in which
a client sends only when every earlier request has been answered, each receive phase returns the
server's response to the client's own request, cut to its buffer. -/
theorem replies_routed {σ : Type} (P : Setup σ) (fs : σ) (ms : List Move)
    (h : Run.Along (step P) (fun s m => s.orderly m = true) (init fs) ms) (pre : List Move)
    (hpre : pre <+: ms) : RepliesRouted (run P fs pre) :=
  (Run.exec_invariant_prefix inv_step (inv_init fs) h hpre).returned

/-- Client 2 begins its call while the first is under way, and sends when the reply is out. -/
def queued : List Move :=
  [.server, .call 1 [1, 2] 4, .client 1, .client 1, .client 1, .call 2 [9, 9] 4, .server, .server,
    .server, .client 2, .client 1, .client 1, .client 1]

theorem replies_routed_queued :
    Run.Along (step mute) (fun s m => s.orderly m = true) (init ()) queued ∧
    (run mute () queued).returned = [⟨1, 1, 4, some ⟨true, 1, 1⟩, [7, 7, 7, 7]⟩] ∧
    RepliesRouted (run mute () queued) := by
  have hrun : Run.Along (step mute) (fun s m => s.orderly m = true) (init ()) queued := by
    decide +kernel
  exact ⟨hrun, by decide +kernel, replies_routed mute () queued hrun _ List.prefix_rfl⟩

end QuackOS.Fs
