import Haka.Stream.Fifo
import Haka.Tcp.Run

/-!
# Outgoing sequence numbers

`tcp_stream_pop` gives each packet the sequence number of its segment, moved by the difference
between the bytes received and the bytes sent so far. Whatever is inserted into or erased from the
data of the stream, each packet starts where the packet before it ended, modulo 2^32, and
`tcp_stream_lastseq` is the end of the last one.
-/

namespace Haka

open Reassembly Machine

/-- The packet of a chunk is there, its header is writable, and its sequence number is that of the
chunk. -/
structure Numbered (start : UInt32) (chunk : TcpPacketChunk) : Prop where
  packet : chunk.tcp.packet = true
  writable : chunk.tcp.writable = true
  seq : chunk.tcp.seq = start + chunk.startSeq.toUInt32

/-- The stream is ordered and its chunks, waiting or not, carry their sequence numbers. -/
structure SeqInv (s : TcpStream) (waiting : List TcpPacketChunk) : Prop where
  ordered : Ordered s
  current : ∀ c ∈ s.current, Numbered s.startSeq c
  waiting : ∀ c ∈ waiting, Numbered s.startSeq c

theorem shiftLeft_toUInt32 (a : UInt64) : (a <<< 32).toUInt32 = 0 := by
  apply UInt32.toNat_inj.1
  rw [UInt64.toNat_toUInt32, UInt64.toNat_shiftLeft, Nat.shiftLeft_eq]
  show a.toNat * 2 ^ 32 % 2 ^ 64 % 2 ^ 32 = 0
  omega

theorem tcpRemapSeq_toUInt32 (seq : UInt32) (ref : UInt64) : (tcpRemapSeq seq ref).toUInt32 = seq := by
  have hone : ((1 : UInt64) <<< 32).toUInt32 = 0 := shiftLeft_toUInt32 1
  unfold tcpRemapSeq
  dsimp only
  split_ifs
  · rw [UInt64.toUInt32_add, UInt64.toUInt32_add, shiftLeft_toUInt32, hone]
    simp
  · rw [UInt64.toUInt32_add, shiftLeft_toUInt32]
    simp

variable {s : TcpStream}

variable {tcp : Tcp}

theorem tcpChunk_numbered (hp : tcp.packet = true) (hw : tcp.writable = true) : Numbered s.startSeq
    (tcpChunk s tcp) := by
  refine ⟨hp, hw, ?_⟩
  show tcp.seq = s.startSeq + (tcpRemapSeq (tcpGetSeq tcp) _ - s.startSeq.toUInt64).toUInt32
  rw [UInt64.toUInt32_sub, tcpRemapSeq_toUInt32, UInt32.toUInt32_toUInt64]
  have hseq : tcpGetSeq tcp = tcp.seq := if_pos hp
  grind

theorem seqInv_push {h : Heap} (hs : SeqInv s s.queued) (hp : tcp.packet = true)
    (hw : tcp.writable = true) :
    SeqInv (tcpStreamPush h s tcp).2.1 (tcpStreamPush h s tcp).2.1.queued := by
  refine push_rule (P := fun _ s l => SeqInv s l) (fun h s c l hc hs => ?_) (fun _ s l l' hl hs => ?_)
    (fun _ s l q hs => ⟨⟨hs.ordered.sent, hs.ordered.current⟩, hs.current, hs.waiting⟩) ?_ hs
  · refine ⟨hs.ordered.handOver hc, fun x hx => ?_, fun x hx => hs.waiting x (by simp [hx])⟩
    rcases List.mem_append.1 hx with hx | hx
    · exact hs.current x hx
    · obtain rfl := List.mem_singleton.1 hx
      have hn := hs.waiting c (by simp)
      exact ⟨hn.packet, hn.writable, hn.seq⟩
  · exact ⟨hs.ordered, hs.current, fun c hc => hs.waiting c (hl.mem_iff.1 hc)⟩
  · refine ⟨hs.ordered, hs.current, fun c hc => ?_⟩
    rcases List.mem_cons.1 hc with rfl | hc
    · exact tcpChunk_numbered hp hw
    · exact hs.waiting c hc

theorem tcpStreamSeq_seq (hp : tcp.packet = true) (hw : tcp.writable = true) :
    (tcpStreamSeq s tcp).seq = tcp.seq + s.firstOffsetSeq.toUInt64.toUInt32 := by
  have hseq : tcpGetSeq tcp = tcp.seq := if_pos hp
  have hack : ((tcpGetSeq tcp).toUInt64.toInt64 + s.firstOffsetSeq).toUInt64.toUInt32 =
      tcp.seq + s.firstOffsetSeq.toUInt64.toUInt32 := by
    rw [Int64.toUInt64_add, UInt64.toUInt32_add, UInt64.toUInt64_toInt64, UInt32.toUInt32_toUInt64,
      hseq]
  unfold tcpStreamSeq tcpSetSeq
  simp only [hack]
  split_ifs with hne hset
  · rfl
  · simp [hp, hw] at hset
  · rw [not_not.1 hne, hseq]

theorem popPacket_seq {chunk : TcpPacketChunk} (hn : Numbered s.startSeq chunk)
    (hc : chunk.startSeq = s.lastSentSeq) (current : List TcpPacketChunk)
    (buffers : VbufferStream Unit) (available : Vbuffer) :
    (popPacket s chunk available).seq = tcpStreamLastseq s ∧
    tcpStreamLastseq (popStream s chunk current buffers available) =
      (popPacket s chunk available).seq + UInt32.ofNat (vbufferSize available) := by
  have hseq : (popPacket s chunk available).seq =
      chunk.tcp.seq + s.firstOffsetSeq.toUInt64.toUInt32 := by
    have hset : (tcpStreamSeq s { chunk.tcp with payload := available }).seq = _ :=
      tcpStreamSeq_seq hn.packet hn.writable
    unfold popPacket
    split_ifs
    · exact hset
    · exact hset
  have hlast : tcpStreamLastseq s =
      s.startSeq + s.lastSentSeq.toUInt32 + s.firstOffsetSeq.toUInt64.toUInt32 := by
    unfold tcpStreamLastseq
    rw [UInt64.toUInt32_add, UInt64.toUInt32_add, UInt32.toUInt32_toUInt64]
  have hlast' : tcpStreamLastseq (popStream s chunk current buffers available) =
      s.startSeq + chunk.endSeq.toUInt32 + (s.firstOffsetSeq.toUInt64.toUInt32 +
        (UInt32.ofNat (vbufferSize available) - (chunk.endSeq.toUInt32 - chunk.startSeq.toUInt32))) := by
    unfold tcpStreamLastseq popStream poppedOffset
    rw [UInt64.toUInt32_add, UInt64.toUInt32_add, UInt32.toUInt32_toUInt64, Int64.toUInt64_add,
      UInt64.toUInt32_add, UInt64.toUInt64_toInt64, UInt64.toUInt32_sub, UInt64.toUInt32_sub,
      UInt64.toUInt32_ofNat']
  rw [hseq, hlast, hlast', hn.seq, hc]
  constructor
  · rfl
  · grind

def PacketOk (_ : Heap × TcpStream) (i : Heap × TcpCall) : Prop :=
  match i.2 with
  | .push tcp => tcp.packet = true ∧ tcp.writable = true
  | _ => True

instance (σ : Heap × TcpStream) : ∀ i, Decidable (PacketOk σ i)
  | (_, .push tcp) => inferInstanceAs (Decidable (tcp.packet = true ∧ tcp.writable = true))
  | (_, .pop) | (_, .edit _) => inferInstanceAs (Decidable True)

/-- Popped packets that follow one another from `a` to `b`. -/
def Continuous (a : UInt32) (popped : List Popped) (b : UInt32) : Prop :=
  Adjacent Popped.seq (fun p => p.seq + UInt32.ofNat p.length) a popped b

variable {σ : Heap × TcpStream}

/-- **One call.** A pop gives a packet that starts at `tcp_stream_lastseq` and moves it to the end of
the packet; the other calls leave it as it is. -/
theorem tcpStep_seq {i : Heap × TcpCall} (hs : SeqInv σ.2 σ.2.queued) (hi : PacketOk σ i) :
    SeqInv (tcpStep σ i).1.2 (tcpStep σ i).1.2.queued ∧
    Continuous (tcpStreamLastseq σ.2) (tcpStep σ i).2.toList (tcpStreamLastseq (tcpStep σ i).1.2) ∧
    ∀ p ∈ (tcpStep σ i).2, p.lastseq = p.seq + UInt32.ofNat p.length := by
  obtain ⟨h0, s⟩ := σ
  obtain ⟨h, call⟩ := i
  cases call with
  | push tcp =>
    refine ⟨seqInv_push hs hi.1 hi.2, ?_, by simp [tcpStep]⟩
    show tcpStreamLastseq s = tcpStreamLastseq (tcpStreamPush h s tcp).2.1
    have hsame := push_sameSent h s tcp
    unfold tcpStreamLastseq
    rw [hsame.startSeq, hsame.lastSentSeq, hsame.firstOffsetSeq]
  | edit data => exact ⟨⟨⟨hs.ordered.sent, hs.ordered.current⟩, hs.current, hs.waiting⟩, rfl,
      by simp [tcpStep]⟩
  | pop =>
    simp only [tcpStep]
    rcases tcpPop_cases h s with heq | ⟨h', buffers, -, heq⟩ |
      ⟨chunk, current, h', buffers, available, u, hc, -, heq⟩
    · rw [heq]
      exact ⟨hs, rfl, by simp⟩
    · rw [heq]
      exact ⟨⟨⟨hs.ordered.sent, hs.ordered.current⟩, hs.current, hs.waiting⟩, rfl, by simp⟩
    · have hcur := hs.ordered.current
      rw [hc] at hcur
      have hnum := hs.current
      rw [hc] at hnum
      obtain ⟨hstart, hend⟩ := popPacket_seq (hnum chunk (by simp)) hcur.1 current buffers
        available
      rw [heq]
      refine ⟨⟨hs.ordered.popStream hc, fun c hm => hnum c (List.mem_cons_of_mem _ hm), hs.waiting⟩,
        ⟨hstart, ?_⟩, ?_⟩
      · show _ + UInt32.ofNat (vbufferSize (popPacket s chunk available).payload) = _
        rw [popPacket_payload, hend]
      · rintro p ⟨⟩
        dsimp only
        rw [popPacket_payload, hend]

/-- **A run.** The popped packets go from `tcp_stream_lastseq` before the run to the one after it. -/
theorem run_seq {is : List (Heap × TcpCall)} (hs : SeqInv σ.2 σ.2.queued)
    (hcalls : Guarded tcpStep PacketOk σ is) :
    Continuous (tcpStreamLastseq σ.2) ((run tcpStep σ is).2.flatMap Option.toList)
      (tcpStreamLastseq (run tcpStep σ is).1.2) ∧
    ∀ p ∈ (run tcpStep σ is).2.flatMap Option.toList, p.lastseq = p.seq + UInt32.ofNat p.length := by
  induction is generalizing σ with
  | nil => exact ⟨rfl, by simp⟩
  | cons i is ih =>
    obtain ⟨hs', hstep, hlast⟩ := tcpStep_seq hs hcalls.1
    obtain ⟨hrest, hlasts⟩ := ih hs' hcalls.2
    refine ⟨hstep.append hrest, fun p hp => ?_⟩
    rcases List.mem_append.1 hp with hp | hp
    · exact hlast p (by simpa using hp)
    · exact hlasts p hp

theorem lastseq_start (h : Heap) (seq : UInt32) : tcpStreamLastseq (tcpStart h seq).2 = seq := by
  have hzero : (Int64.toUInt64 0).toUInt32 = 0 := by decide
  simp [tcpStreamLastseq, tcpStart, tcpStreamInit, tcpStreamCreate, hzero]

/-- **Outgoing sequence numbers are continuous.** In every run of pushes, edits and pops, the first
popped packet starts at `start_seq`, each next one where the one before it ends, and
`tcp_stream_lastseq` is the end of the last. -/
theorem outgoing_sequence_continuous (h : Heap) (seq : UInt32) (is : List (Heap × TcpCall))
    (hcalls : Guarded tcpStep PacketOk (tcpStart h seq) is) :
    Continuous seq ((run tcpStep (tcpStart h seq) is).2.flatMap Option.toList)
      (tcpStreamLastseq (run tcpStep (tcpStart h seq) is).1.2) ∧
    ∀ p ∈ (run tcpStep (tcpStart h seq) is).2.flatMap Option.toList,
      p.lastseq = p.seq + UInt32.ofNat p.length := by
  have hinit : SeqInv (tcpStart h seq).2 (tcpStart h seq).2.queued :=
    ⟨ordered_start h seq, by simp [tcpStart, tcpStreamInit, tcpStreamCreate],
      by simp [tcpStart, tcpStreamInit, tcpStreamCreate]⟩
  have hrun := run_seq hinit hcalls
  rwa [lastseq_start] at hrun

/-- Two segments are pushed across the wrap of the sequence numbers, two bytes are inserted into the
first one, and both are popped. -/
def growingRun : List (Heap × TcpCall) :=
  let pushes : List (Heap × TcpCall) :=
    [(twoBlocks 20, .push (dataPacket 4294967294 (blockBuffer 3 1 2))),
      (twoBlocks 30, .push (dataPacket 0 (blockBuffer 5 2 1)))]
  let data := (run tcpStep (tcpStart (twoBlocks 10) 4294967294) pushes).1.2.stream.data
  let r := vbufferIteratorInsert (twoBlocks 50) data ⟨3, 1, 0, false⟩ (blockBuffer 40 1 2)
  pushes ++ [(r.heap, .edit r.buffer), (twoBlocks 60, .pop), (twoBlocks 70, .pop)]

theorem outgoing_sequence_continuous_growing :
    ((run tcpStep (tcpStart (twoBlocks 10) 4294967294) growingRun).2.flatMap Option.toList).map
        (fun p => (p.seq, p.length)) = [(4294967294, 4), (2, 1)] ∧
    Continuous 4294967294
      ((run tcpStep (tcpStart (twoBlocks 10) 4294967294) growingRun).2.flatMap Option.toList)
      (tcpStreamLastseq (run tcpStep (tcpStart (twoBlocks 10) 4294967294) growingRun).1.2) ∧
    ∀ p ∈ (run tcpStep (tcpStart (twoBlocks 10) 4294967294) growingRun).2.flatMap Option.toList,
      p.lastseq = p.seq + UInt32.ofNat p.length :=
  ⟨by decide +kernel, outgoing_sequence_continuous (twoBlocks 10) 4294967294 growingRun
    (by decide +kernel)⟩

end Haka
