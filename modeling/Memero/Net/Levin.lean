import Memero.Basic.Serialization
import Memero.Lib.Receiver

/-!
# Levin

The receiving side of the levin protocol: `async_protocol_handler::handle_recv` of
`tools/epee/src/net/levin_protocol_handler_async.cpp`, with the packet header of `levin_base.h`.

What the rest of the program does when it is called, and the part of its state that the handler
consults, is a parameter: any `Commands` on any type of states. The calls that the handler makes
are recorded in the order in which it makes them.
-/

namespace Memero.Levin

def LEVIN_SIGNATURE : Nat := 0x0101010101012101
def LEVIN_PACKET_REQUEST : Nat := 1
def LEVIN_PACKET_RESPONSE : Nat := 2
def LEVIN_PROTOCOL_VER_1 : Nat := 1

/-- `handshake_command`. -/
def handshakeCommand : Nat := 1001

/-- `bucket_head2`. The flag is the byte that holds it. -/
structure BucketHead2 where
  signature : Nat
  cb : Nat
  haveToReturnData : UInt8
  command : Nat
  returnCode : Nat
  flags : Nat
  protocolVersion : Nat
  deriving DecidableEq, Repr

/-- The fields of the header in memory, without padding. -/
def bucketHead2 : BinaryFormat BucketHead2 :=
  (Format.uint64.seq fun _ => Format.uint64.seq fun _ => Format.uint8.seq fun _ =>
    (Format.little 4).seq fun _ => (Format.little 4).seq fun _ => (Format.little 4).seq fun _ =>
      Format.little 4).map
    (fun (signature, cb, haveToReturnData, command, returnCode, flags, protocolVersion) =>
      { signature := signature, cb := cb, haveToReturnData := haveToReturnData
        command := command, returnCode := returnCode, flags := flags
        protocolVersion := protocolVersion })
    (fun head => (head.signature, head.cb, head.haveToReturnData, head.command, head.returnCode,
      head.flags, head.protocolVersion)) fun _ _ _ => rfl

/-- `sizeof(bucket_head2)`. -/
def headSize : Nat := 33

/-- `make_header`. -/
def makeHeader (command msgSize flags : Nat) (expectResponse : Bool) : BucketHead2 :=
  { signature := LEVIN_SIGNATURE
    cb := msgSize
    haveToReturnData := if expectResponse then 1 else 0
    command := command
    returnCode := 0
    flags := flags
    protocolVersion := LEVIN_PROTOCOL_VER_1 }

/-- `m_max_packet_size`: `m_initial_max_packet_size` or the `m_max_packet_size` of the
configuration, which are never set to anything else. -/
inductive PacketLimit where
  | initial
  | configured
  deriving DecidableEq, Repr

/-- `LEVIN_INITIAL_MAX_PACKET_SIZE` and `LEVIN_DEFAULT_MAX_PACKET_SIZE`. -/
def PacketLimit.bytes : PacketLimit → Nat
  | .initial => 256 * 1024
  | .configured => 100000000

/-- `stream_state`. -/
inductive StreamState where
  | head
  | body
  deriving DecidableEq, Repr

/-- The rounds of the loop that need no further header. -/
def StreamState.pending : StreamState → Nat
  | .head => 0
  | .body => 1

/-- What the handler calls, with the payload. -/
inductive Call where
  | invoke (command : Nat) (payload : List UInt8)
  | notify (command : Nat) (payload : List UInt8)
  | response (code : Nat) (payload : List UInt8)
  deriving DecidableEq, Repr

/-- The rest of the program as the handler sees it. -/
structure Commands (σ : Type) where
  /-- `m_close_called`. -/
  closeCalled : σ → Bool
  /-- `get_max_bytes`. -/
  getMaxBytes : σ → Nat → Nat
  /-- `handshake_complete`. -/
  handshakeComplete : σ → Bool
  /-- The code and the buffer that `invoke` returns. -/
  invoke : σ → Nat → List UInt8 → Nat × List UInt8 × σ
  notify : σ → Nat → List UInt8 → σ
  /-- `do_send`. -/
  doSend : σ → List UInt8 → Bool × σ
  /-- Whether `m_invoke_response_handlers` has a handler. -/
  hasResponseHandler : σ → Bool
  /-- `cancel_timer` of the first handler, which is removed if the timer was cancelled. -/
  cancelTimer : σ → Bool × σ
  /-- `handle` of the handler that was removed last. -/
  handle : σ → Nat → List UInt8 → σ
  /-- `m_wait_count`. -/
  waitCount : σ → Nat
  /-- The bytes in memory behind the terminator of a string. -/
  pastEnd : List UInt8 → List UInt8

/-- The members of `async_protocol_handler`, without `m_cache_in_buffer`. -/
structure Handler (σ : Type) where
  fragmentBuffer : List UInt8
  maxPacketSize : PacketLimit
  state : StreamState
  currentHead : BucketHead2
  oponentProtocolVer : Nat
  invokeResultCode : Nat
  invokeBufReady : Bool
  /-- The calls made so far. -/
  calls : List Call
  connection : σ

namespace Commands

variable {σ : Type} (env : Commands σ)

/-- A packet that answers an invoke. -/
def respond (h : Handler σ) (buff : List UInt8) : Bool × Handler σ :=
  if env.hasResponseHandler h.connection then
    match env.cancelTimer h.connection with
    | (true, connection) =>
      let code := h.currentHead.returnCode
      (true, { h with
        calls := h.calls ++ [.response code buff]
        connection := env.handle connection code buff })
    | (false, connection) => (true, { h with connection := connection })
  else if env.waitCount h.connection = 0 ∧ env.closeCalled h.connection = false then
    (false, h)
  else
    (true, { h with invokeResultCode := h.currentHead.returnCode, invokeBufReady := true })

/-- A packet that wants an answer. -/
def answer (h : Handler σ) (buff : List UInt8) : Bool × Handler σ :=
  let command := h.currentHead.command
  let (returnCode, returnBuff, connection) := env.invoke h.connection command buff
  let maxPacketSize :=
    if command = handshakeCommand ∧ env.handshakeComplete connection = true then
      PacketLimit.configured
    else h.maxPacketSize
  let head :=
    { makeHeader command returnBuff.length LEVIN_PACKET_RESPONSE false with
      returnCode := returnCode }
  let (sent, connection) := env.doSend connection (bucketHead2.write head ++ returnBuff)
  (sent, { h with
    maxPacketSize := maxPacketSize
    calls := h.calls ++ [.invoke command buff]
    connection := connection })

/-- A packet is handed on. -/
def dispatch (h : Handler σ) (buff : List UInt8) : Bool × Handler σ :=
  if h.oponentProtocolVer = LEVIN_PROTOCOL_VER_1 ∧
      h.currentHead.flags &&& LEVIN_PACKET_RESPONSE ≠ 0 then
    env.respond h buff
  else if h.currentHead.haveToReturnData ≠ 0 then
    env.answer h buff
  else
    (true, { h with
      calls := h.calls ++ [.notify h.currentHead.command buff]
      connection := env.notify h.connection h.currentHead.command buff })

/-- The packet in `buff` has been taken off the buffer, of which `rest` is left. A packet that is
neither a request nor a response is a fragment, which has to hold a whole packet. -/
def deliver (limit : Nat) (h : Handler σ) (buff rest : List UInt8) :
    Progress (Handler σ) UInt8 :=
  if h.currentHead.flags &&& (LEVIN_PACKET_REQUEST ||| LEVIN_PACKET_RESPONSE) = 0 then
    let temp := h.fragmentBuffer ++ buff
    if temp.length < headSize then
      .refuse { h with fragmentBuffer := temp } rest
    else
      match bucketHead2.read true temp with
      | none => .refuse { h with fragmentBuffer := [] } rest
      | some (head, inner) =>
        let h := { h with fragmentBuffer := [], currentHead := head }
        if min limit (env.getMaxBytes h.connection head.command) < head.cb then
          .refuse h rest
        else
          match env.dispatch h inner with
          | (true, h) => .advance h rest
          | (false, h) => .refuse h rest
  else
    match env.dispatch h buff with
    | (true, h) => .advance h rest
    | (false, h) => .refuse h rest

/-- The eight bytes that are compared with the signature while a header is incomplete. They are
taken from the ninth byte on, and from memory where the buffer ends before. -/
def levinData (cacheInBuffer : List UInt8) : List UInt8 :=
  ((cacheInBuffer ++ 0 :: env.pastEnd cacheInBuffer).drop 8).take 8

/-- One round of the loop of `handle_recv`. -/
def step (limit : Nat) (h : Handler σ) (cacheInBuffer : List UInt8) :
    Progress (Handler σ) UInt8 :=
  match h.state with
  | .body =>
    if cacheInBuffer.length < h.currentHead.cb then
      .wait
    else
      env.deliver limit { h with state := .head } (cacheInBuffer.take h.currentHead.cb)
        (cacheInBuffer.drop h.currentHead.cb)
  | .head =>
    if cacheInBuffer.length < headSize then
      if 8 ≤ cacheInBuffer.length ∧
          env.levinData cacheInBuffer ≠ littleEndian 8 LEVIN_SIGNATURE then
        .refuse h cacheInBuffer
      else
        .wait
    else
      match bucketHead2.read true cacheInBuffer with
      | none => .refuse h cacheInBuffer
      | some (head, rest) =>
        if head.signature ≠ LEVIN_SIGNATURE then
          .refuse h cacheInBuffer
        else
          let h := { h with
            currentHead := head
            state := .body
            oponentProtocolVer := head.protocolVersion }
          if min limit (env.getMaxBytes h.connection head.command) < head.cb then
            .refuse h rest
          else
            .advance h rest

end Commands

/-! ## What a step does to the buffer -/

variable (head : BucketHead2)

theorem bucketHead2_write :
    bucketHead2.write head = littleEndian 8 head.signature ++ (littleEndian 8 head.cb ++
      ([head.haveToReturnData] ++ (littleEndian 4 head.command ++
        (littleEndian 4 head.returnCode ++ (littleEndian 4 head.flags ++
          littleEndian 4 head.protocolVersion))))) :=
  rfl

theorem bucketHead2_write_length : (bucketHead2.write head).length = headSize := by
  rfl

theorem bucketHead2_valid : bucketHead2.valid head = true :=
  rfl

namespace Commands

variable {σ : Type} {env : Commands σ} {limit : Nat} {h next : Handler σ}
  {buff rest left cache : List UInt8}

/-- What the rest of the program does is not seen in the state of the stream. -/
theorem dispatch_stream (env : Commands σ) (h : Handler σ) (buff : List UInt8) :
    (env.dispatch h buff).2.state = h.state ∧
      (env.dispatch h buff).2.fragmentBuffer = h.fragmentBuffer := by
  unfold dispatch respond answer
  split
  · split
    · split <;> exact ⟨rfl, rfl⟩
    · split <;> exact ⟨rfl, rfl⟩
  · split <;> exact ⟨rfl, rfl⟩

theorem deliver_stream (advances : env.deliver limit h buff rest = .advance next left) :
    left = rest ∧ next.state = h.state ∧ (h.fragmentBuffer = [] → next.fragmentBuffer = []) := by
  unfold deliver at advances
  dsimp only at advances
  split at advances
  · split at advances
    · cases advances
    · split at advances
      · cases advances
      · rename_i head inner _
        split at advances
        · cases advances
        · have stream := env.dispatch_stream { h with fragmentBuffer := [], currentHead := head } inner
          split at advances
          · rename_i result
            rw [result] at stream
            cases advances
            exact ⟨rfl, stream.1, fun _ => stream.2⟩
          · cases advances
  · have stream := env.dispatch_stream h buff
    split at advances
    · rename_i result
      rw [result] at stream
      cases advances
      exact ⟨rfl, stream.1, fun none => stream.2.trans none⟩
    · cases advances

/-- A round either takes a header or hands on a packet. -/
theorem step_advance (advances : env.step limit h cache = .advance next rest) :
    (h.state = .head ∧ next.state = .body ∧ next.fragmentBuffer = h.fragmentBuffer ∧
      cache.length = headSize + rest.length) ∨
    (h.state = .body ∧ next.state = .head ∧ (h.fragmentBuffer = [] → next.fragmentBuffer = []) ∧
      rest.length ≤ cache.length) := by
  unfold step at advances
  dsimp only at advances
  split at advances
  · rename_i body
    split at advances
    · cases advances
    · obtain ⟨rfl, state, fragment⟩ := deliver_stream advances
      refine .inr ⟨body, state, fragment, ?_⟩
      rw [List.length_drop]
      omega
  · rename_i atHead
    split at advances
    · split at advances <;> cases advances
    · split at advances
      · cases advances
      · rename_i head after found
        split at advances
        · cases advances
        · split at advances
          · cases advances
          · cases advances
            refine .inl ⟨atHead, rfl, rfl, ?_⟩
            rw [bucketHead2.write_read found, List.length_append, bucketHead2_write_length]

/-- The handler as a receiver of a stream of bytes. -/
def receiver (env : Commands σ) : Receiver (Handler σ) UInt8 where
  opened h := !env.closeCalled h.connection
  limit h := h.maxPacketSize.bytes
  step := env.step
  measure h cache := 2 * cache.length + h.state.pending
  decreases advances := by
    rcases step_advance advances with ⟨before, after, -, lengths⟩ | ⟨before, after, -, lengths⟩
    · rw [before, after, lengths]
      simp only [StreamState.pending, headSize]
      omega
    · rw [before, after]
      simp only [StreamState.pending]
      omega

end Commands

/-- `handle_recv`: whether it returns `true`, and the members after it, with `m_cache_in_buffer`. -/
def handleRecv {σ : Type} (env : Commands σ) (h : Handler σ) (cacheInBuffer chunk : List UInt8) :
    Bool × Handler σ × List UInt8 :=
  if env.closeCalled h.connection then
    (false, h, cacheInBuffer)
  else
    let maxPacketSize := h.maxPacketSize.bytes
    if maxPacketSize < cacheInBuffer.length then
      (false, h, cacheInBuffer)
    else if maxPacketSize - cacheInBuffer.length < h.fragmentBuffer.length then
      (false, h, cacheInBuffer)
    else if maxPacketSize - cacheInBuffer.length - h.fragmentBuffer.length < chunk.length then
      (false, h, cacheInBuffer)
    else
      env.receiver.loop maxPacketSize h (cacheInBuffer ++ chunk)

/-- Chunks are handed to `handle_recv` until it returns `false`, which closes the connection. -/
def feed {σ : Type} (env : Commands σ) :
    Handler σ → List UInt8 → List (List UInt8) → Bool × Handler σ × List UInt8
  | h, cacheInBuffer, [] => (true, h, cacheInBuffer)
  | h, cacheInBuffer, chunk :: chunks =>
    match handleRecv env h cacheInBuffer chunk with
    | (true, next, rest) => feed env next rest chunks
    | refused => refused

end Memero.Levin
