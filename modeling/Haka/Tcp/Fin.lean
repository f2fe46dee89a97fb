import Haka.Stream.Fifo
import Haka.Tcp.Run

/-!
# The FIN of an erased segment

`tcp_stream_pop` drops the packet of a segment whose whole payload was erased. It does not look at
the flags: the FIN of such a segment is lost, although the connection has seen it. In every run a
popped packet is dropped exactly if its segment had data and the buffer stream has none left for it
(`fin_survives_iff`).
-/

namespace Haka

open List Machine

def pushedPackets (is : List (Heap × TcpCall)) : List Tcp :=
  is.filterMap fun i => match i.2 with
    | .push tcp => some tcp
    | _ => none

/-- The chunk of a packet, with its number of bytes. -/
structure ChunkOf (tcp : Tcp) (chunk : TcpPacketChunk) : Prop where
  packet : chunk.tcp.packet = true
  address : chunk.tcp.address = tcp.address
  flags : chunk.tcp.flags = tcp.flags
  length : (chunk.endSeq - chunk.startSeq).toNat = vbufferSize tcp.payload
  short : vbufferSize tcp.payload < 2 ^ 63

/-- The chunks of a stream, waiting or not, are those of pushed packets. -/
structure FromPackets (pushed : List Tcp) (s : TcpStream) (waiting : List TcpPacketChunk) :
    Prop where
  current : ∀ c ∈ s.current, ∃ tcp ∈ pushed, ChunkOf tcp c
  waiting : ∀ c ∈ waiting, ∃ tcp ∈ pushed, ChunkOf tcp c

def SizedPush (_ : Heap × TcpStream) (i : Heap × TcpCall) : Prop :=
  match i.2 with
  | .push tcp => tcp.packet = true ∧ vbufferSize tcp.payload < 2 ^ 63
  | _ => True

instance (σ : Heap × TcpStream) : ∀ i, Decidable (SizedPush σ i)
  | (_, .push tcp) =>
    inferInstanceAs (Decidable (tcp.packet = true ∧ vbufferSize tcp.payload < 2 ^ 63))
  | (_, .pop) | (_, .edit _) => inferInstanceAs (Decidable True)

section Fin

variable {h : Heap} {s : TcpStream} {tcp : Tcp} {pushed pushed' : List Tcp}

theorem FromPackets.mono {l : List TcpPacketChunk} (hs : FromPackets pushed s l)
    (hsub : pushed ⊆ pushed') : FromPackets pushed' s l := by
  constructor
  · intro c hc
    obtain ⟨tcp, hmem, hof⟩ := hs.current c hc
    exact ⟨tcp, hsub hmem, hof⟩
  · intro c hc
    obtain ⟨tcp, hmem, hof⟩ := hs.waiting c hc
    exact ⟨tcp, hsub hmem, hof⟩

theorem tcpChunk_of (hp : tcp.packet = true) (hsize : vbufferSize tcp.payload < 2 ^ 63) :
    ChunkOf tcp (tcpChunk s tcp) := by
  refine ⟨hp, rfl, rfl, ?_, hsize⟩
  show ((tcpChunk s tcp).startSeq + tcpGetPayloadLength tcp - (tcpChunk s tcp).startSeq).toNat = _
  have hlen : tcpGetPayloadLength tcp = UInt64.ofNat (vbufferSize tcp.payload) := if_pos hp
  have hstart := (tcpChunk s tcp).startSeq.toNat_lt
  rw [hlen, UInt64.toNat_sub, UInt64.toNat_add, UInt64.toNat_ofNat']
  omega

theorem fromPackets_push (hs : FromPackets pushed s s.queued) (hmem : tcp ∈ pushed)
    (hp : tcp.packet = true) (hsize : vbufferSize tcp.payload < 2 ^ 63) :
    FromPackets pushed (tcpStreamPush h s tcp).2.1 (tcpStreamPush h s tcp).2.1.queued := by
  refine push_rule (P := fun _ s l => FromPackets pushed s l) (fun h s c l _ hs => ?_)
    (fun _ s l l' hl hs => ⟨hs.current, fun c hc => hs.waiting c (hl.mem_iff.1 hc)⟩)
    (fun _ s l q hs => ⟨hs.current, hs.waiting⟩) ⟨hs.current, ?_⟩ hs
  · refine ⟨fun x hx => ?_, fun x hx => hs.waiting x (mem_cons_of_mem _ hx)⟩
    rcases mem_append.1 hx with hx | hx
    · exact hs.current x hx
    · obtain rfl := mem_singleton.1 hx
      obtain ⟨tcp, hmem, hof⟩ := hs.waiting c mem_cons_self
      exact ⟨tcp, hmem, hof.packet, hof.address, hof.flags, hof.length, hof.short⟩
  · intro c hc
    rcases mem_cons.1 hc with rfl | hc
    · exact ⟨tcp, hmem, tcpChunk_of hp hsize⟩
    · exact hs.waiting c hc

theorem fromPackets_step {σ : Heap × TcpStream} {i : Heap × TcpCall}
    (hs : FromPackets pushed σ.2 σ.2.queued) (hi : SizedPush σ i) :
    FromPackets (pushed ++ pushedPackets [i]) (tcpStep σ i).1.2 (tcpStep σ i).1.2.queued := by
  obtain ⟨h0, s⟩ := σ
  obtain ⟨h, call⟩ := i
  have hs := hs.mono (subset_append_left pushed (pushedPackets [(h, call)]))
  cases call with
  | push tcp => exact fromPackets_push hs (by simp [pushedPackets]) hi.1 hi.2
  | edit data => exact ⟨hs.current, hs.waiting⟩
  | pop =>
    simp only [tcpStep]
    rcases tcpPop_cases h s with heq | ⟨h', buffers, -, heq⟩ |
      ⟨chunk, current, h', buffers, available, u, hc, -, heq⟩
    · rw [heq]
      exact hs
    · rw [heq]
      exact ⟨hs.current, hs.waiting⟩
    · rw [heq]
      refine ⟨fun c hmem => hs.current c ?_, hs.waiting⟩
      rw [hc]
      exact mem_cons_of_mem _ hmem

theorem fromPackets_run {σ : Heap × TcpStream} {is : List (Heap × TcpCall)}
    (hs : FromPackets pushed σ.2 σ.2.queued) (hcalls : Guarded tcpStep SizedPush σ is) :
    FromPackets (pushed ++ pushedPackets is) (run tcpStep σ is).1.2
      (run tcpStep σ is).1.2.queued := by
  induction is generalizing σ pushed with
  | nil => exact hs.mono (subset_append_left _ _)
  | cons i is ih =>
    have hrest := ih (fromPackets_step hs hcalls.1) hcalls.2
    refine hrest.mono ?_
    rw [append_assoc]
    refine append_subset.2 ⟨subset_append_left _ _, ?_⟩
    have hcons : pushedPackets (i :: is) = pushedPackets [i] ++ pushedPackets is := by
      unfold pushedPackets
      rw [← filterMap_append, singleton_append]
    rw [hcons]
    exact subset_append_right _ _

theorem toInt64_neg_iff {x : UInt64} : x.toInt64 < 0 ↔ 2 ^ 63 ≤ x.toNat := by
  rw [Int64.lt_iff_toInt_lt]
  show x.toBitVec.toInt < 0 ↔ _
  rw [BitVec.toInt_eq_toNat_bmod, Int.bmod_def]
  show _ ↔ 2 ^ 63 ≤ x.toBitVec.toNat
  omega

theorem popPacket_packet {chunk : TcpPacketChunk} {available : Vbuffer} (hof : ChunkOf tcp chunk)
    (hsize : vbufferSize available < 2 ^ 63) :
    (popPacket s chunk available).packet = true ↔
      vbufferSize available ≠ 0 ∨ vbufferSize tcp.payload = 0 := by
  obtain ⟨len, hdef⟩ : ∃ len, len = chunk.endSeq - chunk.startSeq := ⟨_, rfl⟩
  have hlength := hof.length
  have hshort := hof.short
  rw [← hdef] at hlength
  have hneg : chunk.startSeq - chunk.endSeq = 0 - len := by
    grind
  have hsent : (tcpStreamSeq s { chunk.tcp with payload := available }).packet = true := by
    unfold tcpStreamSeq tcpSetSeq
    dsimp only
    split_ifs <;> exact hof.packet
  have hdrop : (poppedOffset chunk available < 0 ∧
      (poppedOffset chunk available).toUInt64 = chunk.startSeq - chunk.endSeq) ↔
      vbufferSize available = 0 ∧ vbufferSize tcp.payload ≠ 0 := by
    unfold poppedOffset
    rw [← hdef, hneg, toInt64_neg_iff, UInt64.toUInt64_toInt64, ← UInt64.toNat_inj,
      UInt64.toNat_sub, UInt64.toNat_sub, UInt64.toNat_ofNat', hlength, UInt64.toNat_zero]
    omega
  unfold popPacket
  by_cases hd : vbufferSize available = 0 ∧ vbufferSize tcp.payload ≠ 0
  · rw [if_pos (hdrop.2 hd)]
    refine ⟨nofun, fun hor => ?_⟩
    exact (hor.elim (fun h => h hd.1) hd.2).elim
  · rw [if_neg (mt hdrop.1 hd)]
    refine ⟨fun _ => ?_, fun _ => hsent⟩
    tauto

theorem popPacket_same (s : TcpStream) (chunk : TcpPacketChunk) (available : Vbuffer) :
    (popPacket s chunk available).address = chunk.tcp.address ∧
      (popPacket s chunk available).flags = chunk.tcp.flags := by
  unfold popPacket tcpStreamSeq tcpSetSeq tcpActionDrop
  dsimp only
  split_ifs <;> exact ⟨rfl, rfl⟩

/-- **The FIN of a segment.** In every run a popped packet that carries FIN is that of a pushed
segment with FIN; and it is not dropped exactly if there is data left for it or the segment had
none. -/
theorem fin_survives_iff (h : Heap) (seq : UInt32) (is : List (Heap × TcpCall))
    (hcalls : Guarded tcpStep SizedPush (tcpStart h seq) is) {h₁ h₂ : Heap} {s' : TcpStream}
    (hpop : tcpStreamPop h₁ (run tcpStep (tcpStart h seq) is).1.2 = (h₂, s', some tcp))
    (hfin : tcp.flags.fin = true) (hsize : vbufferSize tcp.payload < 2 ^ 63) :
    ∃ pushed ∈ pushedPackets is, pushed.address = tcp.address ∧ pushed.flags.fin = true ∧
      (tcp.packet = true ↔ vbufferSize tcp.payload ≠ 0 ∨ vbufferSize pushed.payload = 0) := by
  have hinit : FromPackets [] (tcpStart h seq).2 (tcpStart h seq).2.queued :=
    ⟨by simp [tcpStart, tcpStreamInit, tcpStreamCreate],
      by simp [tcpStart, tcpStreamInit, tcpStreamCreate]⟩
  have hs := fromPackets_run hinit hcalls
  generalize (run tcpStep (tcpStart h seq) is).1.2 = s at hs hpop
  rcases tcpPop_cases h₁ s with heq | ⟨h', buffers, -, heq⟩ |
    ⟨chunk, current, h', buffers, available, u, hc, -, heq⟩
  · rw [heq] at hpop
    cases hpop
  · rw [heq] at hpop
    cases hpop
  · rw [heq] at hpop
    obtain rfl : popPacket s chunk available = tcp :=
      Option.some.inj (congrArg (fun r => r.2.2) hpop)
    obtain ⟨pushed, hmem, hof⟩ := hs.current chunk (by rw [hc]; exact mem_cons_self)
    obtain ⟨haddr, hflags⟩ := popPacket_same s chunk available
    rw [popPacket_payload] at hsize ⊢
    refine ⟨pushed, hmem, ?_, ?_, popPacket_packet hof hsize⟩
    · rw [haddr, hof.address]
    · rw [← hof.flags, ← hflags]
      exact hfin

end Fin

def finPacket (seq : UInt32) : Tcp :=
  ⟨7, true, true, { fin := true, ack := true }, seq, 0, blockBuffer 3 1 2⟩

/-- The packet is pushed, and one byte or both are erased from the data of the stream. -/
def erasedFinRun (n : ℕ) : List (Heap × TcpCall) :=
  let pushes : List (Heap × TcpCall) := [(twoBlocks 20, .push (finPacket 1000))]
  let data := (run tcpStep (tcpStart (twoBlocks 10) 1000) pushes).1.2.stream.data
  let r := vbufferErase (twoBlocks 50) data (vbufferSubCreate data 0 (some n))
  pushes ++ [(r.1, .edit r.2.1)]

/-- One byte is left, and the packet is not dropped. -/
theorem fin_survives_short : ∃ h₂ s' tcp, tcpStreamPop (twoBlocks 60)
        (run tcpStep (tcpStart (twoBlocks 10) 1000) (erasedFinRun 1)).1.2 = (h₂, s', some tcp) ∧
      tcp.flags.fin = true ∧ tcp.packet = true := by
  have hcalls : Guarded tcpStep SizedPush (tcpStart (twoBlocks 10) 1000) (erasedFinRun 1) := by
    decide +kernel
  have hpop : (tcpStreamPop (twoBlocks 60)
      (run tcpStep (tcpStart (twoBlocks 10) 1000) (erasedFinRun 1)).1.2).2.2.map
        (fun tcp => (tcp.flags.fin, vbufferSize tcp.payload)) = some (true, 1) := by decide +kernel
  rcases h : tcpStreamPop (twoBlocks 60)
      (run tcpStep (tcpStart (twoBlocks 10) 1000) (erasedFinRun 1)).1.2 with ⟨h₂, s', _ | tcp⟩
  · rw [h] at hpop
    cases hpop
  · rw [h] at hpop
    obtain ⟨hfin, hsize⟩ := Prod.mk.inj (Option.some.inj hpop)
    obtain ⟨pushed, -, -, -, hiff⟩ := fin_survives_iff (twoBlocks 10) 1000 (erasedFinRun 1) hcalls h
      hfin (by rw [hsize]; decide)
    exact ⟨h₂, s', tcp, rfl, hfin, hiff.2 (.inl (by rw [hsize]; decide))⟩

/-- What goes wrong: both bytes are erased, and the packet is dropped with its FIN. -/
theorem fin_lost_with_data : (tcpStreamPop (twoBlocks 60)
      (run tcpStep (tcpStart (twoBlocks 10) 1000) (erasedFinRun 2)).1.2).2.2.map
        (fun tcp => (tcp.address, tcp.flags.fin, tcp.packet)) = some (7, true, false) := by
  decide +kernel

end Haka
