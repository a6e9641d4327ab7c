import QuackOS.Lib.Bytes
import QuackOS.Sche.Thread

/-!
# Messages and their delivery

The model of `kernel/ipc/message.rs`, of the delivery half of `kernel/ipc/transfer.rs` and of
the two helpers of the native syscalls that move bytes in and out of a `ShortPayload`.

A message that meets a waiting receiver travels through the receiver's `IpcBuffer`, which
counts in words and exists for the first 32 thread indices only.  The main results say what
becomes of the bytes on the two ways a message can take:

* `unpackShort_packShort` — directly, the receiver gets the message, cut to its buffer;
* `readBuffer_deliver` — through the buffer it gets the message padded to whole words, or
  nothing at all (`received`);
* `received_eq_take_iff` — when the two agree.
-/

namespace QuackOS.Ipc

open QuackOS.Sche (ThreadId)
open QuackOS.Bytes

/-- The errors of the IPC layer that the modelled functions return. -/
inductive IpcError
  | invalidChannel
  | invalidThreadState
  | invalidArgument
  | notImplemented
  | channelTableFull
  deriving DecidableEq, Repr

/-- A payload of 32 words; `len` is its length in bytes. -/
structure ShortPayload where
  words : ℕ → BitVec 64
  len : ℕ

/-- A physical frame to be transferred. -/
structure MemoryMapPayload where
  paddr : BitVec 64
  size : BitVec 64
  flags : BitVec 64

/-- `MessageType`. -/
inductive MessageType
  | shortInfo
  | memoryMap
  | grantCapability
  deriving DecidableEq, Repr

/-- The header of a message. -/
structure MessageHeader where
  sender : BitVec 32
  msgType : MessageType
  length : ℕ

/-- A message. -/
inductive Message
  | short (hdr : MessageHeader) (payload : ShortPayload)
  | memoryMap (hdr : MessageHeader) (payload : MemoryMapPayload)
  | grantCap (hdr : MessageHeader) (token : BitVec 32)

/-- `Message::new_short`. -/
def Message.newShort (sender : BitVec 32) (payload : ShortPayload) : Message :=
  .short { sender, msgType := .shortInfo, length := payload.len } payload

/-- `pack_short`: the bytes of a user buffer as a payload. -/
def packShort (bytes : List (BitVec 8)) : ShortPayload :=
  let n := min bytes.length 256
  { words := fun i =>
      if i < (n + 7) / 8 then
        ofBytes (fun k => bytes.getD (8 * i + k) 0) (min (8 * i + 8) n - 8 * i)
      else 0
    len := n }

/-- The first `n` bytes of a payload, a word at a time. -/
def payloadBytes (words : ℕ → BitVec 64) (n : ℕ) : List (BitVec 8) :=
  (List.range 32).flatMap fun i => (List.range (min (n - 8 * i) 8)).map (byte (words i))

/-- `unpack_short`: the bytes copied to a user buffer of length `bufLen`. -/
def unpackShort (p : ShortPayload) (bufLen : ℕ) : List (BitVec 8) :=
  payloadBytes p.words (min (min p.len bufLen) 256)

/-- A message with no bytes, which `sys_ipc_recv` puts in the place of a missing one. -/
def ShortPayload.empty : ShortPayload := { words := fun _ => 0, len := 0 }

/-! ## The buffer table -/

/-- `IPC_BUFFER_SIZE`. -/
def ipcBufferSize : ℕ := 256

/-- `MAX_THREAD_BUFFERS`, which is smaller than `MAX_THREADS`. -/
def maxThreadBuffers : ℕ := 32

/-- The receive buffer of a thread. -/
structure IpcBuffer where
  sender : BitVec 32
  msgType : MessageType
  payload : ℕ → BitVec 8
  payloadLen : ℕ

namespace IpcBuffer

/-- `IpcBuffer::empty`. -/
def empty : IpcBuffer := { sender := 0, msgType := .shortInfo, payload := fun _ => 0, payloadLen := 0 }

/-- One round of the loop in `write_short`. -/
def writeWord (words : ℕ → BitVec 64) (b : IpcBuffer) (i : ℕ) : IpcBuffer :=
  if 8 * i + 8 ≤ ipcBufferSize then
    { b with
      payload := fun j => if 8 * i ≤ j ∧ j < 8 * i + 8 then byte (words i) (j - 8 * i) else b.payload j
      payloadLen := 8 * i + 8 }
  else b

/-- `write_short`. -/
def writeShort (b : IpcBuffer) (sender : BitVec 32) (p : ShortPayload) : IpcBuffer :=
  (List.range ((p.len + 7) / 8)).foldl (writeWord p.words)
    { b with sender, msgType := .shortInfo, payloadLen := 0 }

/-- `read_short`. -/
def readShort (b : IpcBuffer) : Option ShortPayload :=
  if b.payloadLen = 0 ∨ b.payloadLen % 8 ≠ 0 then none
  else
    let wordCount := b.payloadLen / 8
    if 32 < wordCount then none
    else some {
      words := fun i => if i < wordCount then ofBytes (fun k => b.payload (8 * i + k)) 8 else 0
      len := wordCount * 8 }

end IpcBuffer

/-- `IPC_BUFFERS`. -/
abbrev IpcBufferTable := ℕ → Option IpcBuffer

namespace IpcBufferTable

/-- `get_ipc_buffer`. -/
def getIpcBuffer (t : IpcBufferTable) (tid : ThreadId) : Except IpcError IpcBuffer :=
  if maxThreadBuffers ≤ tid.index then .error .invalidThreadState
  else
    match t tid.index with
    | none => .error .invalidThreadState
    | some b => .ok b

/-- `put_ipc_buffer`. -/
def putIpcBuffer (t : IpcBufferTable) (tid : ThreadId) (b : IpcBuffer) :
    Except IpcError IpcBufferTable :=
  if maxThreadBuffers ≤ tid.index then .error .invalidThreadState
  else .ok (Function.update t tid.index (some b))

/-- `ensure_ipc_buffer`. -/
def ensureIpcBuffer (t : IpcBufferTable) (tid : ThreadId) : Except IpcError IpcBufferTable :=
  if maxThreadBuffers ≤ tid.index then .error .invalidThreadState
  else
    match t tid.index with
    | none => .ok (Function.update t tid.index (some .empty))
    | some _ => .ok t

/-- `copy_short`. -/
def copyShort (t : IpcBufferTable) (p : ShortPayload) (sender : BitVec 32) (tid : ThreadId) :
    Except IpcError IpcBufferTable := do
  let t ← t.ensureIpcBuffer tid
  let b ← t.getIpcBuffer tid
  t.putIpcBuffer tid (b.writeShort sender p)

/-- `deliver`, without address spaces as the syscalls call it: only short messages arrive. -/
def deliver (t : IpcBufferTable) (msg : Message) (tid : ThreadId) :
    Except IpcError IpcBufferTable :=
  match msg with
  | .short hdr p => t.copyShort p hdr.sender tid
  | .memoryMap _ _ => .error .invalidArgument
  | .grantCap _ _ => .error .notImplemented

/-- `let _ = deliver(..)`: the table after a delivery whose result is thrown away. -/
def delivered (t : IpcBufferTable) (msg : Message) (tid : ThreadId) : IpcBufferTable :=
  match t.deliver msg tid with
  | .ok t' => t'
  | .error _ => t

/-- What a receiver that had parked takes out of its buffer. -/
def readBuffer (t : IpcBufferTable) (tid : ThreadId) (bufLen : ℕ) : List (BitVec 8) :=
  match t.getIpcBuffer tid with
  | .error _ => []
  | .ok b =>
      match b.readShort with
      | none => []
      | some p => unpackShort p bufLen

end IpcBufferTable

/-! ## The bytes of a payload -/

/-- The loop over words visits every byte once. -/
theorem payloadBytes_eq (words : ℕ → BitVec 64) {n : ℕ} (hn : n ≤ 256) :
    payloadBytes words n = (List.range n).map fun j => byte (words (j / 8)) (j % 8) := by
  have key : ∀ k, ((List.range k).flatMap fun i =>
      (List.range (min (n - 8 * i) 8)).map (byte (words i))) =
      (List.range (min n (8 * k))).map fun j => byte (words (j / 8)) (j % 8) := by
    intro k
    induction k with
    | zero => simp
    | succ k ih =>
      have hlen : min n (8 * (k + 1)) = min n (8 * k) + min (n - 8 * k) 8 := by omega
      rw [List.range_succ, List.flatMap_append, ih, hlen, List.range_add, List.map_append]
      congr 1
      rw [List.flatMap_singleton, List.map_map]
      refine List.map_congr_left fun i hi => ?_
      rw [List.mem_range] at hi
      have h1 : (min n (8 * k) + i) / 8 = k := by omega
      have h2 : (min n (8 * k) + i) % 8 = i := by omega
      simp [h1, h2]
  unfold payloadBytes
  rw [key 32, Nat.min_eq_left (by omega)]

theorem getD_of_length_le {m : List (BitVec 8)} {j : ℕ} (h : m.length ≤ j) : m.getD j 0 = 0 := by
  rw [List.getD_eq_getElem?_getD, List.getElem?_eq_none h]
  rfl

/-- Byte `j` of a packed message. -/
theorem byte_packShort (m : List (BitVec 8)) (h : m.length ≤ 256) (j : ℕ) :
    byte ((packShort m).words (j / 8)) (j % 8) = m.getD j 0 := by
  have hj : 8 * (j / 8) + j % 8 = j := by omega
  simp only [packShort, Nat.min_eq_left h]
  by_cases hw : j / 8 < (m.length + 7) / 8
  · rw [if_pos hw, byte_ofBytes _ (by omega), hj]
    by_cases hlt : j < m.length
    · rw [if_pos (by omega)]
    · rw [if_neg (by omega), getD_of_length_le (by omega)]
  · rw [if_neg hw, getD_of_length_le (by omega)]
    simp [byte]

/-- The first `n` bytes of a packed message, with zeros after its end. -/
theorem payloadBytes_packShort (m : List (BitVec 8)) (h : m.length ≤ 256) {n : ℕ} (hn : n ≤ 256) :
    payloadBytes (packShort m).words n = (List.range n).map fun j => m.getD j 0 := by
  rw [payloadBytes_eq _ hn]
  refine List.map_congr_left fun j _ => byte_packShort m h j

theorem map_getD_range {m : List (BitVec 8)} {n : ℕ} (hn : n ≤ m.length) :
    ((List.range n).map fun j => m.getD j 0) = m.take n := by
  refine List.ext_getElem (by simp [hn]) fun j h1 h2 => ?_
  rw [List.length_map, List.length_range] at h1
  simp [List.getElem?_eq_getElem (show j < m.length by omega)]

/-- **A message taken over directly** is cut to the receiver's buffer, and nothing else. -/
theorem unpackShort_packShort (m : List (BitVec 8)) (h : m.length ≤ 256) (bufLen : ℕ) :
    unpackShort (packShort m) bufLen = m.take bufLen := by
  have hlen : (packShort m).len = m.length := by simp [packShort, h]
  unfold unpackShort
  rw [hlen, payloadBytes_packShort m h (by omega), map_getD_range (by omega)]
  rcases Nat.le_total m.length bufLen with hle | hle
  · rw [Nat.min_eq_left hle, Nat.min_eq_left h, List.take_of_length_le hle, List.take_length]
  · rw [Nat.min_eq_right hle, Nat.min_eq_left (by omega)]

/-! ## Through the buffer -/

namespace IpcBuffer

/-- What the loop of `write_short` has done after `k` rounds. -/
theorem foldl_writeWord (words : ℕ → BitVec 64) (b : IpcBuffer) (hb : b.payloadLen = 0) {k : ℕ}
    (hk : k ≤ 32) : ((List.range k).foldl (writeWord words) b).payloadLen = 8 * k ∧
      ∀ j < 8 * k, ((List.range k).foldl (writeWord words) b).payload j =
        byte (words (j / 8)) (j % 8) := by
  induction k with
  | zero => exact ⟨by simp [hb], fun j hj => by omega⟩
  | succ k ih =>
    obtain ⟨-, hpay⟩ := ih (by omega)
    rw [List.range_succ, List.foldl_append]
    have hfit : 8 * k + 8 ≤ ipcBufferSize := by
      unfold ipcBufferSize
      omega
    simp only [List.foldl_cons, List.foldl_nil, writeWord, hfit, if_true]
    refine ⟨by omega, fun j hj => ?_⟩
    by_cases hnew : 8 * k ≤ j
    · have h1 : j / 8 = k := by omega
      have h2 : j % 8 = j - 8 * k := by omega
      rw [if_pos ⟨hnew, by omega⟩, h1, h2]
    · rw [if_neg (fun hc => hnew hc.1)]
      exact hpay j (by omega)

/-- The buffer gives back whole words. -/
theorem readShort_writeShort (b : IpcBuffer) (sender : BitVec 32) (p : ShortPayload)
    (hlen : p.len ≤ 256) :
    (p.len = 0 ∧ (b.writeShort sender p).readShort = none) ∨
    ∃ q, (b.writeShort sender p).readShort = some q ∧ q.len = 8 * ((p.len + 7) / 8) ∧
      ∀ i < (p.len + 7) / 8, q.words i = p.words i := by
  obtain ⟨hpl, hpay⟩ := foldl_writeWord p.words
    { b with sender, msgType := .shortInfo, payloadLen := 0 } rfl
    (k := (p.len + 7) / 8) (by omega)
  set k := (p.len + 7) / 8 with hk
  unfold readShort writeShort
  rw [← hk, hpl]
  by_cases h0 : p.len = 0
  · left
    refine ⟨h0, ?_⟩
    have : k = 0 := by omega
    simp [this]
  · right
    have h1 : ¬ (8 * k = 0 ∨ 8 * k % 8 ≠ 0) := by omega
    have h2 : 8 * k / 8 = k := by omega
    have h3 : ¬ 32 < k := by omega
    simp only [h1, if_false, h2, h3]
    refine ⟨_, rfl, by simp only; omega, fun i hi => ?_⟩
    simp only [hi, if_true]
    refine Eq.trans (ofBytes_congr fun c hc => ?_) (ofBytes_byte (p.words i))
    rw [hpay (8 * i + c) (by omega)]
    have h4 : (8 * i + c) / 8 = i := by omega
    have h5 : (8 * i + c) % 8 = c := by omega
    rw [h4, h5]

end IpcBuffer

/-- What a parked receiver gets of a message: nothing beyond the 32 buffers, else the message
padded with zeros to whole words and cut to its buffer. -/
def received (tid : ThreadId) (m : List (BitVec 8)) (bufLen : ℕ) : List (BitVec 8) :=
  if tid.index < maxThreadBuffers then
    (List.range (min (8 * ((m.length + 7) / 8)) bufLen)).map fun j => m.getD j 0
  else []

namespace IpcBufferTable

/-- A delivery to another index is not seen. -/
theorem readBuffer_delivered_of_ne (t : IpcBufferTable) (msg : Message) {tid other : ThreadId}
    (h : other.index ≠ tid.index) (bufLen : ℕ) :
    (t.delivered msg tid).readBuffer other bufLen = t.readBuffer other bufLen := by
  have hframe : (t.delivered msg tid) other.index = t other.index := by
    unfold delivered deliver copyShort ensureIpcBuffer getIpcBuffer putIpcBuffer
    cases msg with
    | memoryMap _ _ => rfl
    | grantCap _ _ => rfl
    | short hdr p =>
      by_cases hi : maxThreadBuffers ≤ tid.index
      · simp [hi, bind, Except.bind]
      · cases ht : t tid.index with
        | none => simp [hi, bind, Except.bind, Function.update_of_ne h]
        | some b => simp [hi, ht, bind, Except.bind, Function.update_of_ne h]
  unfold readBuffer getIpcBuffer
  rw [hframe]

/-- A delivery within the table writes the buffer. -/
theorem delivered_short (t : IpcBufferTable) (sender : BitVec 32) (p : ShortPayload)
    {tid : ThreadId} (h : ¬ maxThreadBuffers ≤ tid.index) :
    ∃ b : IpcBuffer, (t.delivered (.newShort sender p) tid).getIpcBuffer tid =
      .ok (b.writeShort sender p) := by
  unfold delivered deliver Message.newShort copyShort ensureIpcBuffer getIpcBuffer putIpcBuffer
  cases ht : t tid.index with
  | none => exact ⟨.empty, by simp [h, bind, Except.bind]⟩
  | some b => exact ⟨b, by simp [h, ht, bind, Except.bind]⟩

/-- **A message through the buffer.** -/
theorem readBuffer_deliver (t : IpcBufferTable) (sender : BitVec 32) (m : List (BitVec 8))
    (hm : m.length ≤ 256) (tid : ThreadId) (bufLen : ℕ) :
    (t.delivered (.newShort sender (packShort m)) tid).readBuffer tid bufLen =
      received tid m bufLen := by
  have hplen : (packShort m).len = m.length := by simp [packShort, hm]
  by_cases hi : maxThreadBuffers ≤ tid.index
  · unfold received readBuffer getIpcBuffer
    rw [if_pos hi, if_neg (by omega)]
  · obtain ⟨b, hb⟩ := t.delivered_short sender (packShort m) hi
    unfold received readBuffer
    rw [hb, if_pos (by omega)]
    rcases b.readShort_writeShort sender (packShort m) (by omega) with ⟨h0, hnone⟩ | ⟨q, hq, hqlen, hqw⟩
    · have hzero : 8 * ((m.length + 7) / 8) = 0 := by omega
      simp [hnone, hzero]
    · simp only [hq]
      rw [hplen] at hqlen hqw
      have hn : min (min (8 * ((m.length + 7) / 8)) bufLen) 256 =
          min (8 * ((m.length + 7) / 8)) bufLen := by omega
      rw [unpackShort, hqlen, hn, payloadBytes_eq _ (by omega)]
      refine List.map_congr_left fun j hj => ?_
      rw [List.mem_range] at hj
      rw [hqw (j / 8) (by omega)]
      exact byte_packShort m hm j

end IpcBufferTable

/-- The receiver's index, the length of the message and the receiver's buffer are such that the
message arrives as it was sent. -/
def Fits (tid : ThreadId) (len bufLen : ℕ) : Prop :=
  len = 0 ∨ bufLen = 0 ∨ (tid.index < maxThreadBuffers ∧ (8 ∣ len ∨ bufLen ≤ len))

instance (tid : ThreadId) (len bufLen : ℕ) : Decidable (Fits tid len bufLen) :=
  inferInstanceAs (Decidable (_ ∨ _))

/-- **When the buffer makes no difference.** -/
theorem received_eq_take_iff (tid : ThreadId) (m : List (BitVec 8)) (bufLen : ℕ) :
    received tid m bufLen = m.take bufLen ↔ Fits tid m.length bufLen := by
  unfold received Fits
  constructor
  · intro h
    have hlen := congrArg List.length h
    by_cases hi : tid.index < maxThreadBuffers
    · simp only [hi, if_true, List.length_map, List.length_range, List.length_take] at hlen
      simp only [hi, true_and]
      omega
    · simp only [hi, if_false, List.length_nil, List.length_take] at hlen
      omega
  · rintro (h0 | h0 | ⟨hi, hlen⟩)
    · rw [List.length_eq_zero_iff] at h0
      simp [h0]
    · simp [h0]
    · rw [if_pos hi]
      rcases Nat.le_total m.length bufLen with hle | hle
      · have h8 : min (8 * ((m.length + 7) / 8)) bufLen = m.length := by omega
        rw [h8, map_getD_range (le_refl _), List.take_length, List.take_of_length_le hle]
      · rw [Nat.min_eq_right (by omega), map_getD_range hle]

end QuackOS.Ipc
