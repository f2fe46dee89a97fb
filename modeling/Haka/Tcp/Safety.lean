import Haka.Stream.Fifo
import Haka.Tcp.Run

/-!
# Reassembled data is a prefix of the byte stream

Segments of one byte stream are pushed in any order, with duplicates and overlaps, and packets are
popped in between. The bytes of the popped packets are a prefix of the byte stream.

A segment that was sent before the sequence numbers wrapped may be given a start beyond 2^32. Such
a chunk waits in the queue for ever, as `last_seq` never comes near its start.
-/

namespace Haka

open List Reassembly Machine

/-! ## Sequence numbers -/

theorem remap_toNat {seq : UInt32} {ref : UInt64} (hr : ref.toNat < 2 ^ 63) :
    (tcpRemapSeq seq ref).toNat = if seq.toNat + ref.toNat / 2 ^ 32 * 2 ^ 32 + 2 ^ 31 < ref.toNat
      then seq.toNat + ref.toNat / 2 ^ 32 * 2 ^ 32 + 2 ^ 32
      else seq.toNat + ref.toNat / 2 ^ 32 * 2 ^ 32 := by
  have hseq := seq.toNat_lt
  have hshift : ((ref >>> 32) <<< 32).toNat = ref.toNat / 2 ^ 32 * 2 ^ 32 := by
    rw [UInt64.toNat_shiftLeft, UInt64.toNat_shiftRight, Nat.shiftLeft_eq, Nat.shiftRight_eq_div_pow]
    show ref.toNat / 2 ^ 32 * 2 ^ 32 % 2 ^ 64 = _
    omega
  have hret : (seq.toUInt64 + ((ref >>> 32) <<< 32)).toNat =
      seq.toNat + ref.toNat / 2 ^ 32 * 2 ^ 32 := by
    rw [UInt64.toNat_add, hshift, UInt32.toNat_toUInt64]
    omega
  have h31 : ((1 : UInt64) <<< 31).toNat = 2 ^ 31 := by decide
  have h32 : ((1 : UInt64) <<< 32).toNat = 2 ^ 32 := by decide
  have hcond : seq.toUInt64 + ((ref >>> 32) <<< 32) + ((1 : UInt64) <<< 31) < ref ↔
      seq.toNat + ref.toNat / 2 ^ 32 * 2 ^ 32 + 2 ^ 31 < ref.toNat := by
    rw [UInt64.lt_iff_toNat_lt, UInt64.toNat_add, hret, h31]
    omega
  unfold tcpRemapSeq
  by_cases hc : seq.toNat + ref.toNat / 2 ^ 32 * 2 ^ 32 + 2 ^ 31 < ref.toNat
  · rw [if_pos hc, if_pos (hcond.2 hc), UInt64.toNat_add, hret, h32]
    omega
  · rw [if_neg hc, if_neg fun h0 => hc (hcond.1 h0), hret]

/-- The interval of a packet in the byte stream that starts at `start`. -/
def tcpSegment (start : UInt32) (tcp : Tcp) : Seg :=
  ⟨(tcp.seq - start).toNat, (tcp.seq - start).toNat + vbufferSize tcp.payload⟩

theorem tcpChunk_start {s : TcpStream} {tcp : Tcp} (hp : tcp.packet = true)
    (hl : s.lastSentSeq.toNat < 2 ^ 31) (ho : (tcpSegment s.startSeq tcp).start < 2 ^ 31) :
    (tcpChunk s tcp).startSeq.toNat = (tcpSegment s.startSeq tcp).start ∨
      s.lastSentSeq ≠ 0 ∧
      (tcpChunk s tcp).startSeq.toNat = (tcpSegment s.startSeq tcp).start + 2 ^ 32 := by
  have hstart := s.startSeq.toNat_lt
  have hseq := tcp.seq.toNat_lt
  have hoff : (tcpSegment s.startSeq tcp).start =
      (2 ^ 32 - s.startSeq.toNat + tcp.seq.toNat) % 2 ^ 32 := UInt32.toNat_sub ..
  have href : (s.lastSentSeq + s.startSeq.toUInt64).toNat =
      s.lastSentSeq.toNat + s.startSeq.toNat := by
    rw [UInt64.toNat_add, UInt32.toNat_toUInt64]
    omega
  have hget : tcpGetSeq tcp = tcp.seq := if_pos hp
  have hchunk : (tcpChunk s tcp).startSeq.toNat = (2 ^ 64 - s.startSeq.toNat +
      (tcpRemapSeq tcp.seq (s.lastSentSeq + s.startSeq.toUInt64)).toNat) % 2 ^ 64 := by
    show (tcpRemapSeq (tcpGetSeq tcp) _ - s.startSeq.toUInt64).toNat = _
    rw [UInt64.toNat_sub, UInt32.toNat_toUInt64, hget]
  have hzero : s.lastSentSeq.toNat ≠ 0 → s.lastSentSeq ≠ 0 := fun h0 h1 => h0 (by rw [h1]; rfl)
  rw [remap_toNat (by omega), href] at hchunk
  by_cases h0 : s.lastSentSeq.toNat = 0
  · left
    split_ifs at hchunk <;> omega
  · have hor : (tcpChunk s tcp).startSeq.toNat = (tcpSegment s.startSeq tcp).start ∨
        (tcpChunk s tcp).startSeq.toNat = (tcpSegment s.startSeq tcp).start + 2 ^ 32 := by
      split_ifs at hchunk <;> omega
    exact hor.imp_right fun h1 => ⟨hzero h0, h1⟩

/-! ## The invariant -/

/-- A chunk not handed over yet: its payload is a buffer of its own and, if the chunk starts inside
the byte stream, holds the bytes of the interval. -/
structure Waiting (D : List UInt8) (h : Heap) (s : TcpStream) (c : TcpPacketChunk) : Prop where
  pushable : Pushable false h s.stream c.tcp.payload
  bytes : c.startSeq.toNat ≤ D.length → c.startSeq.toNat ≤ c.endSeq.toNat ∧
    c.endSeq.toNat ≤ D.length ∧
    c.tcp.payload.content h = slice D c.startSeq.toNat c.endSeq.toNat

/-- The stream holds a part of the byte stream `D`: the buffers of its buffer stream are the slices
of the chunks of `current`, which end inside `D`. -/
structure SafeInv (D : List UInt8) (h : Heap) (s : TcpStream) (queue : List TcpPacketChunk) :
    Prop where
  ordered : Ordered s
  sentLe : s.lastSentSeq.toNat ≤ D.length
  lastLe : s.lastSeq.toNat ≤ D.length
  inside : ∀ c ∈ s.current, c.startSeq.toNat ≤ c.endSeq.toNat ∧ c.endSeq.toNat ≤ D.length
  eof : s.stream.data.last.flags.eof = false
  held : ∃ pend, Fifo false h s.stream pend ∧
    pend.map Prod.snd = s.current.map fun c => slice D c.startSeq.toNat c.endSeq.toNat
  waiting : ∀ c ∈ queue, Waiting D h s c
  apart : queue.Pairwise fun a b => a.tcp.payload.Apart b.tcp.payload

section Steps

variable {D : List UInt8} {h h' : Heap} {s : TcpStream} {c : TcpPacketChunk}
  {l l' : List TcpPacketChunk}

theorem SafeInv.perm (hs : SafeInv D h s l) (hp : l'.Perm l) : SafeInv D h s l' :=
  { hs with
    waiting := fun c hc => hs.waiting c (hp.mem_iff.1 hc)
    apart := (hp.pairwise_iff fun h => h.symm).2 hs.apart }

theorem handOver_fifo {pend : List (StreamChunk Unit × List UInt8)} (hf : Fifo false h s.stream pend)
    (hp : Pushable false h s.stream c.tcp.payload) (heof : s.stream.data.last.flags.eof = false) :
    PushFrame h s.stream c.tcp.payload (handOver h s c).1 (handOver h s c).2.1.stream ∧
    (∃ sc, Fifo false (handOver h s c).1 (handOver h s c).2.1.stream
      (pend ++ [(sc, c.tcp.payload.content h)])) ∧
    (handOver h s c).2.1.current =
      s.current ++ [{ c with tcp := { c.tcp with payload := { c.tcp.payload with body := [] } } }] := by
  obtain ⟨h', s', cur, sc, heq, -, hfr, hf'⟩ := push_fifo hf hp heof none
  have hh : (handOver h s c).1 = h' := by simp [handOver, heq]
  have hstream : (handOver h s c).2.1.stream = s' := by simp [handOver, heq]
  rw [hh, hstream]
  exact ⟨hfr, ⟨sc, hf'⟩, by simp [handOver, heq]⟩

/-- **Hand-over.** The chunk at `last_seq` goes to `current` with its payload. -/
theorem safe_handOver (hs : SafeInv D h s (c :: l)) (hc : c.startSeq = s.lastSeq) :
    SafeInv D (handOver h s c).1 (handOver h s c).2.1 l := by
  have hw := hs.waiting c (by simp)
  obtain ⟨hle, hend, hbytes⟩ := hw.bytes (by rw [hc]; exact hs.lastLe)
  obtain ⟨pend, hf, hpend⟩ := hs.held
  obtain ⟨hfr, ⟨sc, hf'⟩, hcur⟩ := handOver_fifo hf hw.pushable hs.eof
  obtain ⟨hac, hal⟩ := pairwise_cons.1 hs.apart
  refine ⟨hs.ordered.handOver hc, hs.sentLe, hend, ?_, hfr.eof, ⟨_, hf', ?_⟩, ?_, hal⟩
  · rw [hcur]
    intro x hx
    rcases mem_append.1 hx with hx | hx
    · exact hs.inside x hx
    · obtain rfl := mem_singleton.1 hx
      exact ⟨hle, hend⟩
  · rw [hcur, map_append, map_append, hpend, map_singleton, map_singleton, hbytes]
  · intro x hx
    have hx' := hs.waiting x (by simp [hx])
    refine ⟨hx'.pushable.push hfr (hac x hx), ?_⟩
    unfold Vbuffer.content
    rw [hfr.mem]
    exact hx'.bytes

/-- The heap the caller has at the next call still holds the buffers of the stream. -/
def TcpKeeps (σ : Heap × TcpStream) (h : Heap) : Prop :=
  σ.1.Keeps h σ.2.stream.data.all ∧ ∀ q ∈ σ.2.queued, σ.1.Keeps h q.tcp.payload.all

instance (σ : Heap × TcpStream) (h : Heap) : Decidable (TcpKeeps σ h) :=
  inferInstanceAs (Decidable (σ.1.Keeps h σ.2.stream.data.all ∧
    ∀ q ∈ σ.2.queued, σ.1.Keeps h q.tcp.payload.all))

theorem SafeInv.keeps (hs : SafeInv D h s s.queued) (hk : TcpKeeps (h, s) h') :
    SafeInv D h' s s.queued := by
  obtain ⟨hk, hkq⟩ := hk
  obtain ⟨pend, hf, hpend⟩ := hs.held
  refine { hs with held := ⟨pend, hf.keeps hk, hpend⟩, waiting := fun c hc => ?_ }
  have hw := hs.waiting c hc
  refine ⟨⟨hw.pushable.wf.keeps (hkq c hc), hw.pushable.apart, hw.pushable.plain⟩, fun hle => ?_⟩
  have hbytes : c.tcp.payload.content h' = c.tcp.payload.content h :=
    bytesOf_keeps (hkq c hc) fun x hx => mem_append_left _ hx
  rw [hbytes]
  exact hw.bytes hle

/-- A packet that carries a slice of the byte stream `D`, in buffers of its own and without push
node. -/
structure SliceOk (D : List UInt8) (h : Heap) (s : TcpStream) (tcp : Tcp) : Prop where
  packet : tcp.packet = true
  inside : (tcpSegment s.startSeq tcp).stop ≤ D.length
  bytes : tcp.payload.content h =
    slice D (tcpSegment s.startSeq tcp).start (tcpSegment s.startSeq tcp).stop
  wf : tcp.payload.WF h
  apart : s.stream.data.Apart tcp.payload
  apartQueued : ∀ q ∈ s.queued, q.tcp.payload.Apart tcp.payload
  plain : ∀ x ∈ tcp.payload.body, Plain s.stream.id false x

instance (D : List UInt8) (h : Heap) (s : TcpStream) (tcp : Tcp) : Decidable (SliceOk D h s tcp) :=
  decidable_of_iff (tcp.packet = true ∧ (tcpSegment s.startSeq tcp).stop ≤ D.length ∧
      tcp.payload.content h =
        slice D (tcpSegment s.startSeq tcp).start (tcpSegment s.startSeq tcp).stop ∧
      tcp.payload.WF h ∧ s.stream.data.Apart tcp.payload ∧
      (∀ q ∈ s.queued, q.tcp.payload.Apart tcp.payload) ∧
      ∀ x ∈ tcp.payload.body, Plain s.stream.id false x)
    ⟨fun h => ⟨h.1, h.2.1, h.2.2.1, h.2.2.2.1, h.2.2.2.2.1, h.2.2.2.2.2.1, h.2.2.2.2.2.2⟩,
      fun h => ⟨h.packet, h.inside, h.bytes, h.wf, h.apart, h.apartQueued, h.plain⟩⟩

theorem tcpChunk_end {tcp : Tcp} (hp : tcp.packet = true)
    (hlt : (tcpChunk s tcp).startSeq.toNat + vbufferSize tcp.payload < 2 ^ 64) :
    (tcpChunk s tcp).endSeq.toNat = (tcpChunk s tcp).startSeq.toNat + vbufferSize tcp.payload := by
  have hlen : tcpGetPayloadLength tcp = UInt64.ofNat (vbufferSize tcp.payload) := if_pos hp
  show ((tcpChunk s tcp).startSeq + tcpGetPayloadLength tcp).toNat = _
  rw [UInt64.toNat_add, hlen, UInt64.toNat_ofNat']
  omega

theorem SliceOk.waiting {tcp : Tcp} (hD : D.length < 2 ^ 31) (hs : SafeInv D h s l)
    (ht : SliceOk D h s tcp) : Waiting D h s (tcpChunk s tcp) := by
  refine ⟨⟨ht.wf, ht.apart, ht.plain⟩, fun hle => ?_⟩
  have hin := ht.inside
  have hsent := hs.sentLe
  have hstop : (tcpSegment s.startSeq tcp).stop =
      (tcpSegment s.startSeq tcp).start + vbufferSize tcp.payload := rfl
  have hstart : (tcpChunk s tcp).startSeq.toNat = (tcpSegment s.startSeq tcp).start := by
    rcases tcpChunk_start (s := s) ht.packet (by omega) (by omega) with h0 | ⟨-, h0⟩
    · exact h0
    · omega
  have hend := tcpChunk_end ht.packet (s := s) (by omega)
  have hend' : (tcpChunk s tcp).endSeq.toNat = (tcpSegment s.startSeq tcp).stop := by omega
  rw [hend', hstart]
  exact ⟨by omega, hin, ht.bytes⟩

/-- **Push.** The invariant is kept by the push of a slice. -/
theorem safe_push {tcp : Tcp} (hD : D.length < 2 ^ 31) (hs : SafeInv D h s s.queued)
    (ht : SliceOk D h s tcp) :
    SafeInv D (tcpStreamPush h s tcp).1 (tcpStreamPush h s tcp).2.1
      (tcpStreamPush h s tcp).2.1.queued := by
  refine push_rule (P := SafeInv D) (fun h s c l hc hs => safe_handOver hs hc)
    (fun h s l l' hp hs => hs.perm hp) (fun h s l q hs => ?_) ?_ hs
  · exact ⟨⟨hs.ordered.sent, hs.ordered.current⟩, hs.sentLe, hs.lastLe, hs.inside, hs.eof, hs.held,
      fun c hc => ⟨(hs.waiting c hc).pushable, (hs.waiting c hc).bytes⟩, hs.apart⟩
  · refine { hs with waiting := fun c hc => ?_, apart := ?_ }
    · rcases mem_cons.1 hc with rfl | hc
      · exact ht.waiting hD hs
      · exact hs.waiting c hc
    · exact pairwise_cons.2 ⟨fun q hq => (ht.apartQueued q hq).symm, hs.apart⟩

/-- **Pop.** A popped packet carries the bytes after the ones sent before it. -/
theorem safe_pop (hs : SafeInv D h s s.queued) {r : Heap × TcpStream × Option Tcp}
    (hr : r = tcpStreamPop h s) :
    SafeInv D r.1 r.2.1 r.2.1.queued ∧
    D.drop s.lastSentSeq.toNat = (r.2.2.elim [] fun tcp => tcp.payload.content r.1) ++
      D.drop r.2.1.lastSentSeq.toNat := by
  obtain ⟨pend, hf, hpend⟩ := hs.held
  obtain ⟨h', s', out, heq, hfr, hout⟩ := pop_fifo hf hf.cleanFront
  -- the buffer stream changes only by a pop, which keeps the waiting payloads apart
  have hkeep : ∀ c ∈ s.queued, Waiting D h' { s with stream := s' } c := by
    intro c hc
    have hw := hs.waiting c hc
    refine ⟨hw.pushable.pop hfr, ?_⟩
    unfold Vbuffer.content
    rw [hfr.mem]
    exact hw.bytes
  have heof : s'.data.last.flags.eof = false := hfr.eof.trans hs.eof
  rcases tcpPop_cases h s with hpop | ⟨h1, buffers, hp, hpop⟩ |
    ⟨chunk, current, h1, buffers, available, u, hc, hp, hpop⟩
  · rw [hr, hpop]
    exact ⟨hs, rfl⟩
  · rw [heq] at hp
    obtain ⟨rfl, rfl, rfl⟩ : h' = h1 ∧ s' = buffers ∧ out = none := by simpa using hp
    rcases hout with ⟨-, -, hf'⟩ | ⟨p, pend', b, -, h0, -⟩
    · rw [hr, hpop]
      exact ⟨⟨⟨hs.ordered.sent, hs.ordered.current⟩, hs.sentLe, hs.lastLe, hs.inside, heof,
        ⟨pend, hf', hpend⟩, hkeep, hs.apart⟩, rfl⟩
    · cases h0
  · rw [heq] at hp
    obtain ⟨rfl, rfl, rfl⟩ : h' = h1 ∧ s' = buffers ∧ out = some (available, u) := by simpa using hp
    rcases hout with ⟨h0, -⟩ | ⟨p, pend', b, rfl, h0, hb, -, hf'⟩
    · cases h0
    obtain ⟨rfl, -⟩ : available = b ∧ u = p.1.userdata := by simpa using h0
    rw [hc, map_cons, map_cons] at hpend
    obtain ⟨hp2, hpend'⟩ := cons.inj hpend
    obtain ⟨hle, hlen⟩ := hs.inside chunk (by simp [hc])
    have hcur := hs.ordered.current
    rw [hc] at hcur
    have hstart : chunk.startSeq = s.lastSentSeq := hcur.1
    rw [hr, hpop]
    refine ⟨⟨hs.ordered.popStream hc, hlen, hs.lastLe, fun x hx => ?_, heof,
      ⟨pend', hf', hpend'⟩, ?_, hs.apart⟩, ?_⟩
    · exact hs.inside x (by rw [hc]; exact mem_cons_of_mem _ hx)
    · intro c hcq
      have hw := hkeep c hcq
      exact ⟨hw.pushable, hw.bytes⟩
    · show _ = (popPacket s chunk available).payload.content h' ++ D.drop chunk.endSeq.toNat
      rw [popPacket_payload, hb, hp2, slice_append_drop hle, hstart]

end Steps

/-! ## Runs -/

/-- A call of a run in which the stream data is not edited and the pushed packets carry slices of the
byte stream `D`. -/
def SliceCall (D : List UInt8) (σ : Heap × TcpStream) (i : Heap × TcpCall) : Prop :=
  TcpKeeps σ i.1 ∧
  match i.2 with
  | .push tcp => SliceOk D i.1 σ.2 tcp
  | .pop => True
  | .edit _ => False

instance (D : List UInt8) (σ : Heap × TcpStream) : ∀ i, Decidable (SliceCall D σ i)
  | (h, .push tcp) => inferInstanceAs (Decidable (TcpKeeps σ h ∧ SliceOk D h σ.2 tcp))
  | (h, .pop) => inferInstanceAs (Decidable (TcpKeeps σ h ∧ True))
  | (h, .edit _) => inferInstanceAs (Decidable (TcpKeeps σ h ∧ False))

/-- The invariant, and the bytes of the byte stream that were not popped yet. -/
def SafeRest (D : List UInt8) (σ : Heap × TcpStream) (rest : List UInt8) : Prop :=
  SafeInv D σ.1 σ.2 σ.2.queued ∧ rest = D.drop σ.2.lastSentSeq.toNat

theorem safe_step (D : List UInt8) (hD : D.length < 2 ^ 31) (σ : Heap × TcpStream) (q : List UInt8)
    (i : Heap × TcpCall) (hs : SafeRest D σ q) (hi : SliceCall D σ i) :
    ∃ q', q ++ [] = poppedBytes (tcpStep σ i).2 ++ q' ∧ SafeRest D (tcpStep σ i).1 q' := by
  obtain ⟨h0, s⟩ := σ
  obtain ⟨h, call⟩ := i
  obtain ⟨hs, rfl⟩ := hs
  obtain ⟨hk, hcall⟩ := hi
  have hs : SafeInv D h s s.queued := hs.keeps hk
  cases call with
  | push tcp =>
    refine ⟨_, ?_, safe_push hD hs hcall, rfl⟩
    show D.drop s.lastSentSeq.toNat ++ [] = [] ++ D.drop (tcpStreamPush h s tcp).2.1.lastSentSeq.toNat
    rw [(push_sameSent h s tcp).lastSentSeq, append_nil, nil_append]
  | pop =>
    obtain ⟨hs', hq⟩ := safe_pop hs rfl
    refine ⟨_, ?_, hs', rfl⟩
    simp only [tcpStep, poppedBytes, append_nil, Option.elim_map]
    exact hq
  | edit data => exact absurd hcall id

theorem safe_start (D : List UInt8) (h : Heap) (seq : UInt32) :
    SafeInv D (tcpStart h seq).1 (tcpStart h seq).2 (tcpStart h seq).2.queued :=
  ⟨ordered_start h seq, Nat.zero_le _, Nat.zero_le _, by simp [tcpStart, tcpStreamInit, tcpStreamCreate],
    rfl, ⟨[], init_fifo h, rfl⟩, by simp [tcpStart, tcpStreamInit, tcpStreamCreate],
    by simp [tcpStart, tcpStreamInit, tcpStreamCreate]⟩

/-- **Runs.** The bytes popped in a run are the ones the byte stream has up to `last_sent_seq`. -/
theorem run_safe {D : List UInt8} (hD : D.length < 2 ^ 31) (h : Heap) (seq : UInt32)
    {is : List (Heap × TcpCall)} (hcalls : Guarded tcpStep (SliceCall D) (tcpStart h seq) is) :
    SafeInv D (run tcpStep (tcpStart h seq) is).1.1 (run tcpStep (tcpStart h seq) is).1.2
      (run tcpStep (tcpStart h seq) is).1.2.queued ∧
    (run tcpStep (tcpStart h seq) is).2.flatMap poppedBytes =
      D.take (run tcpStep (tcpStart h seq) is).1.2.lastSentSeq.toNat := by
  have hinit : SafeRest D (tcpStart h seq) D := ⟨safe_start D h seq, rfl⟩
  obtain ⟨q, hq, hs, rfl⟩ := run_queue (fun _ => []) poppedBytes (safe_step D hD) hinit hcalls
  refine ⟨hs, ?_⟩
  rw [flatMap_eq_nil_iff.2 fun _ _ => rfl, append_nil] at hq
  exact append_cancel_right (hq.symm.trans (take_append_drop _ _).symm)

/-- **Reassembly is safe.** In every run of pushes of slices, in any order and with duplicates and
overlaps, and of pops, the popped bytes are a prefix of the byte stream, the chunks of `sent` and
`current` are adjacent, and `last_seq` is the end of the last. -/
theorem tcp_reassembly_safe (D : List UInt8) (hD : D.length < 2 ^ 31) (h : Heap) (seq : UInt32)
    (is : List (Heap × TcpCall)) (hcalls : Guarded tcpStep (SliceCall D) (tcpStart h seq) is) :
    (run tcpStep (tcpStart h seq) is).2.flatMap poppedBytes <+: D ∧
    Adjacent TcpStreamChunk.startSeq TcpStreamChunk.endSeq 0
      ((run tcpStep (tcpStart h seq) is).1.2.sent ++
        (run tcpStep (tcpStart h seq) is).1.2.current.map TcpPacketChunk.toTcpStreamChunk)
      (run tcpStep (tcpStart h seq) is).1.2.lastSeq := by
  obtain ⟨hs, hbytes⟩ := run_safe hD h seq hcalls
  rw [hbytes]
  exact ⟨ take_prefix _ _, hs.ordered.adjacent⟩

/-- The second segment comes first, the first one twice, and both are popped. -/
def shuffledRun : List (Heap × TcpCall) :=
  [(twoBlocks 20, .push (dataPacket 7 (blockBuffer 5 2 1))),
    (twoBlocks 30, .push (dataPacket 5 (blockBuffer 3 1 2))),
    (twoBlocks 40, .push (dataPacket 5 (blockBuffer 7 1 2))),
    (twoBlocks 50, .pop), (twoBlocks 60, .pop)]

theorem tcp_reassembly_safe_shuffled :
    (run tcpStep (tcpStart (twoBlocks 10) 5) shuffledRun).2.flatMap poppedBytes = [97, 98, 99] ∧
    (run tcpStep (tcpStart (twoBlocks 10) 5) shuffledRun).2.flatMap poppedBytes <+: [97, 98, 99] ∧
    Adjacent TcpStreamChunk.startSeq TcpStreamChunk.endSeq 0
      ((run tcpStep (tcpStart (twoBlocks 10) 5) shuffledRun).1.2.sent ++
        (run tcpStep (tcpStart (twoBlocks 10) 5) shuffledRun).1.2.current.map
          TcpPacketChunk.toTcpStreamChunk)
      (run tcpStep (tcpStart (twoBlocks 10) 5) shuffledRun).1.2.lastSeq :=
  ⟨by decide +kernel, tcp_reassembly_safe [97, 98, 99] (by decide) (twoBlocks 10) 5 shuffledRun
    (by decide +kernel)⟩

end Haka
