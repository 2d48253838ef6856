import Memero.Net.Levin

/-!
# Segmentation

Whether the calls that `handle_recv` makes depend on how the stream of packets is cut into chunks.
The packets, handed over one at a time, give the frames that the handler waits for: the header of
each packet, then its payload. The chunks are compared with these frames.
-/

namespace Memero.Levin

open List Receiver

/-- A well-formed packet: its header is signed and announces the size of what follows. -/
structure Packet where
  head : BucketHead2
  payload : List UInt8
  fits : bucketHead2.Fits head
  signed : head.signature = LEVIN_SIGNATURE
  sized : head.cb = payload.length

namespace Packet

/-- The packet on the wire. -/
def bytes (packet : Packet) : List UInt8 :=
  bucketHead2.write packet.head ++ packet.payload

/-- The size announced by the header inside a fragment. -/
def innerCb (packet : Packet) : Nat :=
  if packet.head.flags &&& (LEVIN_PACKET_REQUEST ||| LEVIN_PACKET_RESPONSE) = 0 then
    match bucketHead2.read true packet.payload with
    | none => 0
    | some (head, _) => head.cb
  else 0

/-- The frames of a packet, under the limit in force when it arrives. Of a header fewer than eight
bytes can be waited on, of a payload any part. -/
def frames (packet : Packet) (limit : Nat) : List Frame :=
  [{ size := headSize, claim := packet.head.cb, tolerated := 8, limit := limit },
    { size := packet.payload.length, claim := packet.innerCb, tolerated := packet.payload.length
      limit := limit }]

end Packet

/-- The frames of a stream of packets, with the limits that are in force when the packets arrive
one at a time. -/
def frames {σ : Type} (env : Commands σ) : Handler σ → List Packet → List Frame
  | _, [] => []
  | h, packet :: packets =>
    packet.frames h.maxPacketSize.bytes ++ frames env (handleRecv env h [] packet.bytes).2.1 packets

/-- The header of a packet has been read. -/
def Handler.opened {σ : Type} (h : Handler σ) (packet : Packet) : Handler σ :=
  { h with
    currentHead := packet.head
    state := .body
    oponentProtocolVer := packet.head.protocolVersion }

/-- Nothing is under way. -/
structure Handler.Idle {σ : Type} (h : Handler σ) : Prop where
  state : h.state = .head
  fragment : h.fragmentBuffer = []

variable {σ : Type} {env : Commands σ} {h next last : Handler σ} {cache chunk rest : List UInt8}

/-! ## The handler as a receiver -/

section

variable (none : h.fragmentBuffer = [])
include none

theorem handleRecv_eq : handleRecv env h cache chunk = env.receiver.receive h cache chunk := by
  have opened : env.receiver.opened h = !env.closeCalled h.connection := rfl
  have limit : env.receiver.limit h = h.maxPacketSize.bytes := rfl
  unfold handleRecv receive
  rw [none, limit, opened, length_nil]
  dsimp only
  by_cases closed : env.closeCalled h.connection = true
  · simp [closed]
  · rw [if_neg closed, if_neg (c := (!env.closeCalled h.connection) = false) (by simpa using closed)]
    by_cases room : h.maxPacketSize.bytes < cache.length + chunk.length
    · rw [if_pos room]
      split
      · rfl
      · rw [if_neg (by omega), if_pos (by omega)]
    · rw [if_neg room, if_neg (by omega), if_neg (by omega), if_neg (by omega)]

/-- No fragment is kept. -/
theorem loop_fragment {limit : Nat}
    (accepts : env.receiver.loop limit h cache = (true, next, rest)) :
    next.fragmentBuffer = [] := by
  apply loop_keeps (fun h => h.fragmentBuffer = []) _ none accepts
  intro limit h cache next rest none advances
  rcases Commands.step_advance advances with ⟨-, -, kept, -⟩ | ⟨-, -, kept, -⟩
  · exact kept.trans none
  · exact kept none

theorem handleRecv_fragment (accepts : handleRecv env h cache chunk = (true, next, rest)) :
    next.fragmentBuffer = [] := by
  rw [handleRecv_eq none] at accepts
  unfold receive at accepts
  split at accepts
  · cases accepts
  · split at accepts
    · cases accepts
    · exact loop_fragment none accepts

theorem feed_eq (chunks : List (List UInt8)) :
    feed env h cache chunks = env.receiver.feed h cache chunks := by
  induction chunks generalizing h cache with
  | nil => rfl
  | cons chunk chunks ih =>
    rw [feed, Receiver.feed, ← handleRecv_eq none]
    split
    · rename_i accepts
      rw [accepts]
      exact ih (handleRecv_fragment none accepts)
    · rename_i refused
      split
      · rename_i accepts
        exact absurd accepts (refused _ _)
      · rfl

end

/-! ## One packet -/

namespace Commands

variable {limit : Nat}

theorem step_head (state : h.state = .head) (packet : Packet) (rest : List UInt8) :
    env.step limit h (bucketHead2.write packet.head ++ rest) =
      if min limit (env.getMaxBytes h.connection packet.head.command) < packet.head.cb then
        .refuse (h.opened packet) rest
      else
        .advance (h.opened packet) rest := by
  have long : ¬ (bucketHead2.write packet.head ++ rest).length < headSize := by
    rw [length_append, bucketHead2_write_length]
    omega
  unfold step
  rw [state]
  simp only [if_neg long, bucketHead2.read_write true rest packet.fits (bucketHead2_valid _),
    packet.signed, ne_eq, not_true_eq_false, if_false]
  rfl

theorem step_nil (state : h.state = .head) : env.step limit h [] = .wait := by
  unfold step
  rw [state]
  rfl

/-- A header of which fewer than eight bytes have come is waited for. -/
theorem step_short (state : h.state = .head) (short : cache.length < 8) :
    env.step limit h cache = .wait := by
  unfold step
  rw [state]
  have shorter : cache.length < headSize := Nat.lt_trans short (by decide)
  simp only [if_pos shorter]
  rw [if_neg (by omega)]

variable (packet : Packet)

/-- The bytes that are compared are not those of the signature: either the terminator of the
string is among them or they are the size that the packet announces. -/
theorem levinData_ne (below : packet.head.cb < LEVIN_SIGNATURE)
    (part : cache <+: bucketHead2.write packet.head) (some : 8 ≤ cache.length) :
    env.levinData cache ≠ littleEndian 8 LEVIN_SIGNATURE := by
  unfold levinData
  intro same
  by_cases short : cache.length < 16
  · have terminator := congrArg (fun bytes => bytes[cache.length - 8]?) same
    rw [getElem?_take_of_lt (by omega), getElem?_drop,
      Nat.add_sub_cancel' some, getElem?_append_right (Nat.le_refl _), Nat.sub_self] at terminator
    have nonzero : ∀ i < 8, (littleEndian 8 LEVIN_SIGNATURE)[i]? ≠ .some 0 := by decide
    exact nonzero _ (by omega) terminator.symm
  · obtain ⟨rest, whole⟩ := part
    have announced : ((cache ++ 0 :: env.pastEnd cache).drop 8).take 8 =
        littleEndian 8 packet.head.cb := by
      have taken : (cache.drop 8).take 8 = ((cache ++ rest).drop 8).take 8 := by
        rw [drop_append_of_le_length some, take_append_of_le_length]
        rw [length_drop]
        omega
      rw [drop_append_of_le_length some, take_append_of_le_length, taken, whole, bucketHead2_write,
        drop_left' (littleEndian_length 8 _), take_left' (littleEndian_length 8 _)]
      rw [length_drop]
      omega
    rw [announced] at same
    have numbers := congrArg (fun bytes => ofBigEndian bytes.reverse) same
    rw [ofBigEndian_littleEndian (Nat.lt_trans below (by decide)),
      ofBigEndian_littleEndian (by decide)] at numbers
    omega

/-- The early check refuses every header of which eight bytes have come. -/
theorem step_part (state : h.state = .head) (packet : Packet)
    (below : packet.head.cb < LEVIN_SIGNATURE) (part : cache <+: bucketHead2.write packet.head)
    (shorter : cache.length < headSize) (some : 8 ≤ cache.length) :
    env.step limit h cache = .refuse h cache := by
  unfold step
  rw [state]
  simp only [if_pos shorter]
  rw [if_pos ⟨some, levinData_ne packet below part some⟩]

theorem step_body_wait (shorter : cache.length < packet.payload.length) :
    env.step limit (h.opened packet) cache = .wait := by
  have state : (h.opened packet).state = .body := rfl
  have cb : (h.opened packet).currentHead.cb = packet.payload.length := packet.sized
  unfold step
  rw [state]
  simp only [cb, if_pos shorter]

theorem step_body (rest : List UInt8) :
    env.step limit (h.opened packet) (packet.payload ++ rest) =
      env.deliver limit { h.opened packet with state := .head } packet.payload rest := by
  have state : (h.opened packet).state = .body := rfl
  have cb : (h.opened packet).currentHead.cb = packet.payload.length := packet.sized
  have long : ¬ (packet.payload ++ rest).length < packet.payload.length := by
    rw [length_append]
    omega
  unfold step
  rw [state]
  simp only [cb, if_neg long, take_left, drop_left]

/-- What is done with a packet depends on the limit only through the size that a fragment
announces, and not on what follows. -/
theorem deliver_limit {other : Nat} {packet : Packet} {left after : List UInt8}
    (head : h.currentHead = packet.head) (none : h.fragmentBuffer = [])
    (advances : env.deliver limit h packet.payload rest = .advance next left) :
    (packet.innerCb ≤ other → env.deliver other h packet.payload after = .advance next after) ∧
    (other < packet.innerCb → ∃ refused left,
      env.deliver other h packet.payload after = .refuse refused left) := by
  unfold deliver at advances ⊢
  unfold Packet.innerCb
  rw [head, none, nil_append] at advances ⊢
  dsimp only at advances ⊢
  split at advances
  · rename_i fragment
    simp only [if_pos fragment]
    by_cases short : packet.payload.length < headSize
    · rw [if_pos short] at advances
      cases advances
    · rw [if_neg short] at advances ⊢
      cases found : bucketHead2.read true packet.payload with
      | none =>
        rw [found] at advances
        cases advances
      | some parts =>
        rw [found] at advances
        dsimp only at advances ⊢
        split at advances
        · cases advances
        · rename_i within
          constructor
          · intro fits
            rw [if_neg (by omega)]
            split at advances
            · cases advances
              rfl
            · cases advances
          · intro beyond
            rw [if_pos (by omega)]
            exact ⟨_, _, rfl⟩
  · rename_i whole
    simp only [if_neg whole]
    constructor
    · intro _
      split at advances
      · cases advances
        rfl
      · cases advances
    · intro beyond
      omega

theorem deliver_ne_wait : env.deliver limit h cache rest ≠ .wait := by
  intro waits
  unfold deliver at waits
  dsimp only at waits
  repeat' split at waits
  all_goals cases waits

end Commands

/-- A packet is taken when it comes alone. -/
structure Taken (env : Commands σ) (h : Handler σ) (packet : Packet) (next : Handler σ) : Prop where
  opened : env.closeCalled h.connection = false
  room : packet.bytes.length ≤ h.maxPacketSize.bytes
  allowed : packet.head.cb ≤ env.getMaxBytes h.connection packet.head.command
  delivered : env.deliver h.maxPacketSize.bytes { h.opened packet with state := .head }
    packet.payload [] = .advance next []
  idle : next.Idle

theorem taken_of_handleRecv (idle : h.Idle) (packet : Packet)
    (accepts : handleRecv env h [] packet.bytes = (true, next, rest)) :
    Taken env h packet next ∧ rest = [] := by
  rw [handleRecv_eq idle.fragment] at accepts
  unfold receive at accepts
  split at accepts
  · cases accepts
  rename_i opened
  split at accepts
  · cases accepts
  rename_i room
  rw [nil_append, Packet.bytes] at accepts
  have first := @Commands.step_head σ env h (env.receiver.limit h) idle.state packet packet.payload
  split at first
  · rw [loop_refuse first] at accepts
    cases accepts
  rename_i allowed
  rw [loop_advance first] at accepts
  have second := @Commands.step_body σ env h (env.receiver.limit h) packet []
  rw [append_nil] at second
  cases outcome : env.deliver (env.receiver.limit h) { h.opened packet with state := .head }
      packet.payload [] with
  | wait => exact absurd outcome Commands.deliver_ne_wait
  | refuse refused left =>
    rw [loop_refuse (second.trans outcome)] at accepts
    cases accepts
  | advance after left =>
    obtain ⟨rfl, state, fragment⟩ := Commands.deliver_stream outcome
    rw [loop_advance (second.trans outcome),
      loop_wait (Commands.step_nil state)] at accepts
    cases accepts
    refine ⟨⟨?_, ?_, ?_, outcome, state, fragment idle.fragment⟩, rfl⟩
    · simpa [Commands.receiver] using opened
    · have := Nat.le_of_not_lt room
      simpa [Commands.receiver] using this
    · omega

theorem PacketLimit.bytes_lt (limit : PacketLimit) : limit.bytes < LEVIN_SIGNATURE := by
  cases limit <;> decide

/-- A packet that is taken is awaited as two frames. -/
theorem Taken.expects {packet : Packet} {frames : List Frame} {stream : List UInt8}
    (taken : Taken env h packet next) (idle : h.Idle)
    (later : env.receiver.Expects next frames stream last) :
    env.receiver.Expects h (packet.frames h.maxPacketSize.bytes ++ frames)
      (packet.bytes ++ stream) last := by
  obtain ⟨opened, room, allowed, delivered, -⟩ := taken
  have below : packet.head.cb < LEVIN_SIGNATURE := by
    have announced := packet.sized
    have limit := h.maxPacketSize.bytes_lt
    rw [Packet.bytes, length_append] at room
    omega
  have open' : env.receiver.opened h = true := by simpa [Commands.receiver] using opened
  have openBody : env.receiver.opened (h.opened packet) = true := open'
  rw [Packet.bytes, append_assoc]
  apply Expects.frame (bucketHead2_write_length packet.head) open' rfl
  case used =>
    intro limit rest fits
    have step := @Commands.step_head σ env h limit idle.state packet rest
    rwa [if_neg (by dsimp only at fits; omega)] at step
  case excessive =>
    intro limit rest beyond
    have step := @Commands.step_head σ env h limit idle.state packet rest
    rw [if_pos (by dsimp only at beyond; omega)] at step
    exact ⟨_, _, step⟩
  case awaited =>
    intro limit kept _ _ short
    exact Commands.step_short idle.state short
  case broken =>
    intro limit kept part shorter long
    exact ⟨_, _, Commands.step_part idle.state packet below part shorter long⟩
  case later =>
    have alone := fun limit rest =>
      @Commands.deliver_limit σ env { h.opened packet with state := .head } next [] _ limit packet []
        rest rfl idle.fragment delivered
    apply Expects.frame rfl openBody rfl
    case used =>
      intro limit rest fits
      exact (Commands.step_body packet rest).trans ((alone limit rest).1 fits)
    case excessive =>
      intro limit rest beyond
      obtain ⟨refused, left, refuses⟩ := (alone limit rest).2 beyond
      exact ⟨refused, left, (Commands.step_body packet rest).trans refuses⟩
    case awaited =>
      intro limit kept _ shorter _
      exact Commands.step_body_wait packet shorter
    case broken =>
      intro limit kept _ shorter long
      exact absurd shorter (Nat.not_lt.mpr long)
    case later => exact later

/-- The packets that are taken one at a time are what the handler expects. -/
theorem expects_packets (idle : h.Idle) {packets : List Packet}
    (accepts : feed env h [] (packets.map Packet.bytes) = (true, last, rest)) :
    env.receiver.Expects h (frames env h packets) (packets.map Packet.bytes).flatten last := by
  induction packets generalizing h with
  | nil =>
    cases accepts
    exact .done fun _ => Commands.step_nil idle.state
  | cons packet packets ih =>
    rw [map_cons, feed] at accepts
    split at accepts
    · rename_i next left alone
      obtain ⟨taken, rfl⟩ := taken_of_handleRecv idle packet alone
      have later := ih taken.idle accepts
      rw [frames, alone, map_cons, flatten_cons]
      exact taken.expects idle later
    · rename_i refuses
      exact absurd accepts (refuses _ _)

theorem frames_sized (env : Commands σ) (h : Handler σ) (packets : List Packet) :
    ∀ frame ∈ (frames env h packets).head?, 0 < frame.size := by
  intro frame first
  cases packets with
  | nil => cases first
  | cons packet packets =>
    cases first
    exact Nat.succ_pos 32

/-- Chunks are handled as the packets are if and only if none of them disturbs the handler: each
has to fit, together with the bytes that wait, into the limit in force when it arrives, no packet
that it completes may announce more than that limit, and it must not end between the eighth and the
last byte of a header. -/
theorem handleRecv_segmentation (env : Commands σ) (h : Handler σ) (idle : h.Idle)
    (packets : List Packet) (chunks : List (List UInt8))
    (taken : (feed env h [] (packets.map Packet.bytes)).1 = true)
    (cut : chunks.flatten = (packets.map Packet.bytes).flatten)
    (nonempty : ∀ chunk ∈ chunks, chunk ≠ []) :
    ((feed env h [] chunks).1 = true ∧
      (feed env h [] chunks).2.1.calls = (feed env h [] (packets.map Packet.bytes)).2.1.calls) ↔
    ∀ before chunk after, chunks = before ++ chunk :: after →
      Frame.ChunkFits (frames env h packets) before.flatten.length
        (before.flatten.length + chunk.length) := by
  rcases reference : feed env h [] (packets.map Packet.bytes) with ⟨accepted, last, rest⟩
  rw [reference] at taken
  cases taken
  have expects := expects_packets idle reference
  rw [← cut] at expects
  have sized := frames_sized env h packets
  rw [feed_eq idle.fragment, ← feed_iff expects sized nonempty]
  constructor
  · intro same
    exact same.1
  · intro accepts
    rw [Receiver.feed_eq expects sized nonempty accepts]
    exact ⟨rfl, rfl⟩

/-! ## A header that is cut -/

/-- A program that takes every packet. -/
def obliging : Commands Unit where
  closeCalled _ := false
  getMaxBytes _ _ := 2 ^ 64 - 1
  handshakeComplete _ := true
  invoke connection _ _ := (0, [], connection)
  notify connection _ _ := connection
  doSend connection _ := (true, connection)
  hasResponseHandler _ := false
  cancelTimer connection := (true, connection)
  handle connection _ _ := connection
  waitCount _ := 0
  pastEnd _ := []

/-- A new connection. -/
def fresh : Handler Unit where
  fragmentBuffer := []
  maxPacketSize := .initial
  state := .head
  currentHead := ⟨0, 0, 0, 0, 0, 0, 0⟩
  oponentProtocolVer := 0
  invokeResultCode := 2 ^ 32 - 1
  invokeBufReady := false
  calls := []
  connection := ()

/-- A notification without payload. -/
def ping : Packet where
  head := makeHeader 2001 0 LEVIN_PACKET_REQUEST false
  payload := []
  fits := ⟨⟨(by decide : LEVIN_SIGNATURE < 256 ^ 8), (by decide : 0 < 256 ^ 8), trivial,
    (by decide : 2001 < 256 ^ 4), (by decide : 0 < 256 ^ 4), (by decide : 1 < 256 ^ 4),
    (by decide : 1 < 256 ^ 4)⟩, rfl⟩
  signed := rfl
  sized := rfl

/-- The connection when the notification has been taken. -/
def pinged : Handler Unit :=
  { fresh.opened ping with state := .head, calls := [.notify 2001 []] }

theorem handleRecv_ping : handleRecv obliging fresh [] ping.bytes = (true, pinged, []) := by
  have first := @Commands.step_head Unit obliging fresh (256 * 1024) rfl ping []
  have second := @Commands.step_body Unit obliging fresh (256 * 1024) ping []
  rw [if_neg (by decide)] at first
  have room : ¬ PacketLimit.initial.bytes < ping.bytes.length := by
    rw [Packet.bytes, length_append, bucketHead2_write_length]
    decide
  rw [handleRecv_eq rfl]
  unfold receive
  rw [if_neg (by decide), if_neg (by simpa [Commands.receiver, fresh] using room)]
  exact (loop_advance first).trans
    ((loop_advance second).trans (loop_wait rfl))

theorem feed_ping : feed obliging fresh [] [ping.bytes] = (true, pinged, []) := by
  rw [feed, handleRecv_ping]
  rfl

/-- The first seven bytes can come alone. -/
theorem handleRecv_segmentation_seven :
    (feed obliging fresh [] [ping.bytes.take 7, ping.bytes.drop 7]).1 = true ∧
      (feed obliging fresh [] [ping.bytes.take 7, ping.bytes.drop 7]).2.1.calls =
        (feed obliging fresh [] ([ping].map Packet.bytes)).2.1.calls := by
  have length : ping.bytes.length = 33 := by
    rw [Packet.bytes, length_append, bucketHead2_write_length]
    rfl
  have taken : (feed obliging fresh [] ([ping].map Packet.bytes)).1 = true := by
    rw [map_singleton, feed_ping]
  have listed : frames obliging fresh [ping] = [⟨33, 0, 8, 256 * 1024⟩, ⟨0, 0, 0, 256 * 1024⟩] :=
    rfl
  apply (handleRecv_segmentation obliging fresh ⟨rfl, rfl⟩ [ping] _ taken (by simp) ?_).mpr
  · rw [forall_split_cons, forall_split_cons, listed]
    simp only [flatten_nil, flatten_cons, append_nil, length_nil, length_take, length_drop, length]
    refine ⟨?_, ?_, by simp⟩
    · apply (@Frame.chunkFits_iff 0 _ [] _ 7 (by decide)).mpr
      exact ⟨by decide, (Frame.passable_cons_of_lt (by decide)).mpr (by decide)⟩
    · apply (@Frame.chunkFits_iff 7 _ [] _ 26 (by decide)).mpr
      refine ⟨by decide, (Frame.passable_cons_of_le (by decide)).mpr ⟨by decide, ?_⟩⟩
      exact (Frame.passable_cons_of_le (by decide)).mpr ⟨by decide, Frame.passable_nil _ _⟩
  · intro chunk member
    apply ne_nil_of_length_pos
    rcases mem_pair.mp member with rfl | rfl
    · rw [length_take, length]
      decide
    · rw [length_drop, length]
      decide

/-- A packet that is taken as a whole closes the connection when the first chunk ends after eight
bytes of its header. -/
theorem handleRecv_cut_header :
    (feed obliging fresh [] [ping.bytes]).1 = true ∧
      (feed obliging fresh [] [ping.bytes]).2.1.calls = [.notify 2001 []] ∧
      (feed obliging fresh [] [ping.bytes.take 8, ping.bytes.drop 8]).1 = false ∧
      (feed obliging fresh [] [ping.bytes.take 8, ping.bytes.drop 8]).2.1.calls = [] := by
  have length : ping.bytes.length = 33 := by
    rw [Packet.bytes, length_append, bucketHead2_write_length]
    rfl
  have refused : handleRecv obliging fresh [] (ping.bytes.take 8) =
      (false, fresh, ping.bytes.take 8) := by
    have part : ping.bytes.take 8 <+: bucketHead2.write ping.head := by
      have whole : ping.bytes = bucketHead2.write ping.head := append_nil _
      rw [whole]
      exact take_prefix _ _
    have eight : (ping.bytes.take 8).length = 8 := by rw [length_take, length]; rfl
    have step := @Commands.step_part Unit obliging fresh _ (256 * 1024) rfl ping (by decide) part
      (by rw [eight]; decide) (by rw [eight])
    rw [handleRecv_eq rfl]
    unfold receive
    have room : ¬ PacketLimit.initial.bytes < 8 := by decide
    rw [if_neg (by decide), if_neg (by simpa [Commands.receiver, fresh, eight] using room)]
    exact loop_refuse step
  have stops : feed obliging fresh [] [ping.bytes.take 8, ping.bytes.drop 8] =
      (false, fresh, ping.bytes.take 8) := by
    rw [feed, refused]
  rw [feed_ping, stops]
  exact ⟨rfl, rfl, rfl, rfl⟩

end Memero.Levin
