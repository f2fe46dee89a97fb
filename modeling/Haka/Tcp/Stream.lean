import Haka.Stream.Stream

/-!
# TCP streams

A TCP stream (`struct tcp_stream`) puts the segments of one direction of a connection in order. It
keeps three lists of chunks: `queued`, the segments that came too early, by sequence number;
`current`, those whose payload is in the buffer stream; and `sent`, those that were popped and
whose packet is gone. Sequence numbers are counted from `start_seq` on 64 bits.

The list `modifs` of a chunk is never filled and is left out. A `size_t` has 64 bits.
-/

namespace Haka

/-- The flags of the header that are read. -/
structure TcpFlags where
  fin : Bool := false
  syn : Bool := false
  rst : Bool := false
  ack : Bool := false
  deriving DecidableEq

/-- `struct tcp`, named by its address: whether the packet is there (`packet != NULL`) and its
header can be mapped for writing, the flags and numbers of the header, and the payload. -/
structure Tcp where
  address : ℕ
  packet : Bool
  writable : Bool
  flags : TcpFlags
  seq : UInt32
  ackSeq : UInt32
  payload : Vbuffer

def tcpGetSeq (tcp : Tcp) : UInt32 := if tcp.packet then tcp.seq else 0

def tcpSetSeq (tcp : Tcp) (seq : UInt32) : Tcp :=
  if tcp.packet && tcp.writable then { tcp with seq := seq } else tcp

def tcpSetAckSeq (tcp : Tcp) (ackSeq : UInt32) : Tcp :=
  if tcp.packet && tcp.writable then { tcp with ackSeq := ackSeq } else tcp

def tcpGetPayloadLength (tcp : Tcp) : UInt64 :=
  if tcp.packet then UInt64.ofNat (vbufferSize tcp.payload) else 0

def tcpActionDrop (tcp : Tcp) : Tcp := { tcp with packet := false }

/-- `struct tcp_stream_chunk` without its packet. -/
structure TcpStreamChunk where
  startSeq : UInt64
  endSeq : UInt64
  offsetSeq : Int64

/-- `struct tcp_stream_chunk` with its packet. -/
structure TcpPacketChunk extends TcpStreamChunk where
  tcp : Tcp

/-- `struct tcp_stream`. -/
structure TcpStream where
  startSeq : UInt32
  lastSeq : UInt64
  lastSentSeq : UInt64
  firstOffsetSeq : Int64
  sentOffsetSeq : UInt64
  current : List TcpPacketChunk
  queued : List TcpPacketChunk
  sent : List TcpStreamChunk
  stream : VbufferStream Unit

def tcpStreamCreate (h : Heap) : Heap × TcpStream :=
  let (h', stream) := vbufferStreamInit h
  (h', ⟨-1, 0, 0, 0, 0, [], [], [], stream⟩)

def tcpStreamInit (stream : TcpStream) (seq : UInt32) : TcpStream :=
  { stream with startSeq := seq, lastSeq := 0, lastSentSeq := 0 }

/-- `tcp_remap_seq`: a 64-bit sequence number near `ref`. -/
def tcpRemapSeq (seq : UInt32) (ref : UInt64) : UInt64 :=
  let ret := seq.toUInt64 + ((ref >>> 32) <<< 32)
  if ret + ((1 : UInt64) <<< 31) < ref then ret + ((1 : UInt64) <<< 32) else ret

/-- The chunk `tcp_stream_push` makes of a packet. -/
def tcpChunk (stream : TcpStream) (tcp : Tcp) : TcpPacketChunk :=
  let refSeq := stream.lastSentSeq + stream.startSeq.toUInt64
  let startSeq := tcpRemapSeq (tcpGetSeq tcp) refSeq - stream.startSeq.toUInt64
  ⟨⟨startSeq, startSeq + tcpGetPayloadLength tcp, 0⟩, tcp⟩

/-- The chunk goes to `current` and its payload to the buffer stream, whose refusal is ignored; the
position is that of the payload there. -/
def handOver (h : Heap) (stream : TcpStream) (chunk : TcpPacketChunk) :
    Heap × TcpStream × Option Iterator :=
  let (h', buffers, payload, current) := vbufferStreamPush h stream.stream chunk.tcp.payload none
  (h', { stream with
      current := stream.current ++ [{ chunk with tcp := { chunk.tcp with payload := payload } }],
      stream := buffers, lastSeq := chunk.endSeq }, current)

/-- The check for queued packets of `tcp_stream_push`, which goes on as long as the first queued chunk
starts at `last_seq`. -/
def drainQueued (h : Heap) (stream : TcpStream) : List TcpPacketChunk → Heap × TcpStream
  | [] => (h, { stream with queued := [] })
  | qchunk :: queued =>
    if qchunk.startSeq ≠ stream.lastSeq then (h, { stream with queued := qchunk :: queued })
    else
      let (h', stream', _) := handOver h stream qchunk
      drainQueued h' stream' queued

/-- The insert point of `tcp_stream_push`: before the first queued chunk that starts after the
chunk. `none` when the chunk ends after that start. -/
def insertQueued (chunk : TcpPacketChunk) (queued : List TcpPacketChunk) :
    Option (List TcpPacketChunk) :=
  let before := queued.takeWhile fun qchunk => ¬qchunk.startSeq > chunk.startSeq
  let after := queued.dropWhile fun qchunk => ¬qchunk.startSeq > chunk.startSeq
  match after with
  | [] => some (before ++ [chunk])
  | qchunk :: rest =>
    if chunk.endSeq > qchunk.startSeq then none else some (before ++ chunk :: qchunk :: rest)

/-- `tcp_stream_push`: the stream, the position of the data (the end of the stream by default) and
whether the packet was taken. -/
def tcpStreamPush (h : Heap) (stream : TcpStream) (tcp : Tcp) : Heap × TcpStream × Iterator × Bool :=
  let current := vbufferPosition stream.stream.data 0 none
  -- start_seq is compared, as a 64-bit integer, with (size_t)-1
  if stream.startSeq.toUInt64 = -1 then (h, stream, current, false)
  else
    let chunk := tcpChunk stream tcp
    if stream.lastSeq = chunk.startSeq then
      let (h₁, stream₁, position) := handOver h stream chunk
      let (h₂, stream₂) := drainQueued h₁ stream₁ stream₁.queued
      (h₂, stream₂, position.getD current, true)
    else if chunk.startSeq > stream.lastSeq then
      match insertQueued chunk stream.queued with
      | some queued => (h, { stream with queued := queued }, current, true)
      | none => (h, stream, current, false)
    else (h, stream, current, false)

/-- The loop of `tcp_stream_ack` over the acknowledged chunks: the end of the last one in the
rewritten and in the original numbers. -/
def ackLoop (ack seq newSeq : UInt64) : List TcpStreamChunk → UInt64 × UInt64
  | [] => (seq, newSeq)
  | chunk :: rest =>
    let next := seq + (chunk.endSeq - chunk.startSeq) + chunk.offsetSeq.toUInt64
    if next > ack then (seq, newSeq)
    else if ack ≤ next then (next, chunk.endSeq)
    else ackLoop ack next chunk.endSeq rest

def tcpStreamAck (stream : TcpStream) (tcp : Tcp) : Tcp :=
  if !tcp.packet then tcp
  else
    match stream.sent with
    | [] => tcp
    | chunk :: rest =>
      let seq := stream.sentOffsetSeq + chunk.startSeq
      let ack := tcpRemapSeq tcp.ackSeq seq - stream.startSeq.toUInt64
      let (seq, newSeq) := ackLoop ack seq chunk.startSeq (chunk :: rest)
      let newSeq := newSeq + (ack - seq) + stream.startSeq.toUInt64
      if tcp.ackSeq.toUInt64 ≠ newSeq then tcpSetAckSeq tcp newSeq.toUInt32 else tcp

variable {s : TcpStream} {tcp : Tcp} {chunk : TcpStreamChunk} {rest : List TcpStreamChunk}
  {ack : UInt64} {r : UInt64 × UInt64}

/-- The body of `tcp_stream_ack` for any loop and any remapping: on the loop itself the kernel would
evaluate the comparisons of 64-bit numbers. -/
theorem tcpStreamAck_body (loop : UInt64 → UInt64 → UInt64 → List TcpStreamChunk → UInt64 × UInt64)
    (remap : UInt32 → UInt64 → UInt64) (hp : tcp.packet = true)
    (hs : s.sent = chunk :: rest)
    (ha : remap tcp.ackSeq (s.sentOffsetSeq + chunk.startSeq) - s.startSeq.toUInt64 = ack)
    (hr : loop ack (s.sentOffsetSeq + chunk.startSeq) chunk.startSeq (chunk :: rest) = r) :
    (if !tcp.packet then tcp
    else
      match s.sent with
      | [] => tcp
      | chunk :: rest =>
        let seq := s.sentOffsetSeq + chunk.startSeq
        let ack := remap tcp.ackSeq seq - s.startSeq.toUInt64
        let (seq, newSeq) := loop ack seq chunk.startSeq (chunk :: rest)
        let newSeq := newSeq + (ack - seq) + s.startSeq.toUInt64
        if tcp.ackSeq.toUInt64 ≠ newSeq then tcpSetAckSeq tcp newSeq.toUInt32 else tcp) =
      if tcp.ackSeq.toUInt64 ≠ r.2 + (ack - r.1) + s.startSeq.toUInt64 then
        tcpSetAckSeq tcp (r.2 + (ack - r.1) + s.startSeq.toUInt64).toUInt32 else tcp := by
  rw [hp, hs]
  simp only [ha, hr, Bool.not_true, Bool.false_eq_true, if_false]

theorem tcpStreamAck_cons (hp : tcp.packet = true) (hs : s.sent = chunk :: rest)
    (ha : tcpRemapSeq tcp.ackSeq (s.sentOffsetSeq + chunk.startSeq) - s.startSeq.toUInt64 = ack)
    (hr : ackLoop ack (s.sentOffsetSeq + chunk.startSeq) chunk.startSeq (chunk :: rest) = r) :
    tcpStreamAck s tcp = if tcp.ackSeq.toUInt64 ≠ r.2 + (ack - r.1) + s.startSeq.toUInt64 then
        tcpSetAckSeq tcp (r.2 + (ack - r.1) + s.startSeq.toUInt64).toUInt32 else tcp :=
  tcpStreamAck_body ackLoop tcpRemapSeq hp hs ha hr

theorem tcpStreamAck_cases (s : TcpStream) (tcp : Tcp) :
    tcpStreamAck s tcp = tcp ∨ ∃ a, tcpStreamAck s tcp = tcpSetAckSeq tcp a := by
  cases hp : tcp.packet with
  | false =>
    unfold tcpStreamAck
    rw [hp]
    exact .inl (if_pos rfl)
  | true =>
    cases hs : s.sent with
    | nil =>
      unfold tcpStreamAck
      rw [hp, hs]
      exact .inl (if_neg (by decide))
    | cons chunk rest =>
      rw [tcpStreamAck_cons hp hs rfl rfl]
      generalize ackLoop _ _ _ _ = r
      generalize tcpRemapSeq _ _ = a
      by_cases h : tcp.ackSeq.toUInt64 = r.2 + (a - s.startSeq.toUInt64 - r.1) + s.startSeq.toUInt64
      · exact .inl (if_neg (not_not.2 h))
      · exact .inr ⟨_, if_pos h⟩

theorem tcpStreamAck_eq (s : TcpStream) (tcp : Tcp) :
    tcpStreamAck s tcp = { tcp with ackSeq := (tcpStreamAck s tcp).ackSeq } := by
  rcases tcpStreamAck_cases s tcp with h | ⟨a, h⟩
  · rw [h]
  · rw [h]
    unfold tcpSetAckSeq
    split_ifs <;> rfl

@[simp] theorem tcpStreamAck_payload (s : TcpStream) (tcp : Tcp) :
    (tcpStreamAck s tcp).payload = tcp.payload := by
  rw [tcpStreamAck_eq]

@[simp] theorem tcpStreamAck_address (s : TcpStream) (tcp : Tcp) :
    (tcpStreamAck s tcp).address = tcp.address := by
  rw [tcpStreamAck_eq]

def tcpStreamSeq (stream : TcpStream) (tcp : Tcp) : Tcp :=
  let ack := ((tcpGetSeq tcp).toUInt64.toInt64 + stream.firstOffsetSeq).toUInt64.toUInt32
  if ack ≠ tcpGetSeq tcp then tcpSetSeq tcp ack else tcp

def tcpStreamLastseq (stream : TcpStream) : UInt32 :=
  (stream.startSeq.toUInt64 + stream.lastSentSeq + stream.firstOffsetSeq.toUInt64).toUInt32

/-- `chunk->offset_seq` of a chunk popped with the data `available`. -/
def poppedOffset (chunk : TcpPacketChunk) (available : Vbuffer) : Int64 :=
  (UInt64.ofNat (vbufferSize available) - (chunk.endSeq - chunk.startSeq)).toInt64

/-- The stream after `chunk` is popped with the data `available`. -/
def popStream (stream : TcpStream) (chunk : TcpPacketChunk) (current : List TcpPacketChunk)
    (buffers : VbufferStream Unit) (available : Vbuffer) : TcpStream :=
  { stream with
    stream := buffers, current := current,
    sent := stream.sent ++ [{ chunk.toTcpStreamChunk with offsetSeq := poppedOffset chunk available }],
    lastSentSeq := chunk.endSeq,
    firstOffsetSeq := stream.firstOffsetSeq + poppedOffset chunk available }

/-- The packet of `chunk` with the data `available`. It is dropped when all its data was erased. -/
def popPacket (stream : TcpStream) (chunk : TcpPacketChunk) (available : Vbuffer) : Tcp :=
  let tcp := tcpStreamSeq stream { chunk.tcp with payload := available }
  if poppedOffset chunk available < 0 ∧
      (poppedOffset chunk available).toUInt64 = chunk.startSeq - chunk.endSeq then tcpActionDrop tcp
  else tcp

def tcpStreamPop (h : Heap) (stream : TcpStream) : Heap × TcpStream × Option Tcp :=
  match stream.current with
  | [] => (h, stream, none)
  | chunk :: current =>
    match vbufferStreamPop h stream.stream with
    | (h', buffers, none) => (h', { stream with stream := buffers }, none)
    | (h', buffers, some (available, _)) =>
      (h', popStream stream chunk current buffers available, some (popPacket stream chunk available))

end Haka
