import Haka.Lib.Machine
import Haka.Lib.Reassembly
import Haka.Tcp.Stream

/-!
# Runs of a TCP stream

The calls that push packets to a TCP stream, edit the data of its buffer stream and pop packets are
the inputs of a machine. In every run the chunks of `sent` and `current` are adjacent, from 0 to
`last_seq`, and the queue behaves as a reassembly window.
-/

namespace Haka

open List Reassembly Machine

/-! ## What a push does -/

def handAll (h : Heap) (s : TcpStream) (chunks : List TcpPacketChunk) : Heap × TcpStream :=
  chunks.foldl (fun σ chunk => ((handOver σ.1 σ.2 chunk).1, (handOver σ.1 σ.2 chunk).2.1)) (h, s)

@[simp] theorem handAll_nil (h : Heap) (s : TcpStream) : handAll h s [] = (h, s) := rfl

section

variable (h : Heap) (s : TcpStream) (chunk : TcpPacketChunk)

include h s chunk

@[simp] theorem handAll_cons
    (chunks : List TcpPacketChunk) : handAll h s (chunk :: chunks) =
      handAll (handOver h s chunk).1 (handOver h s chunk).2.1 chunks := rfl

def Consecutive (a : UInt64) (chunks : List TcpPacketChunk) (b : UInt64) : Prop :=
  Adjacent (fun c => c.startSeq) (fun c => c.endSeq) a chunks b

def TcpPacketChunk.seg (chunk : TcpPacketChunk) : Seg :=
  ⟨chunk.startSeq.toNat, chunk.endSeq.toNat⟩

def TcpStream.window (s : TcpStream) : Window := ⟨s.lastSeq.toNat, s.queued.map TcpPacketChunk.seg⟩

@[simp] theorem handOver_lastSeq :
    (handOver h s chunk).2.1.lastSeq = chunk.endSeq := rfl

@[simp] theorem handOver_queued :
    (handOver h s chunk).2.1.queued = s.queued := rfl

end

section Push

variable {h : Heap} {s : TcpStream} {chunk : TcpPacketChunk} {queued : List TcpPacketChunk}

/-- What the drain loop leaves: it hands over a front of the queue, and the rest is the queue. -/
structure Drained (h : Heap) (s : TcpStream) (queued taken rest : List TcpPacketChunk) : Prop where
  queue : queued = taken ++ rest
  result : drainQueued h s queued =
    ((handAll h s taken).1, { (handAll h s taken).2 with queued := rest })
  consecutive : Consecutive s.lastSeq taken (handAll h s taken).2.lastSeq
  window : Window.drain s.lastSeq.toNat (queued.map TcpPacketChunk.seg) =
    ⟨(handAll h s taken).2.lastSeq.toNat, rest.map TcpPacketChunk.seg⟩

theorem drain_spec (h : Heap) (s : TcpStream) (queued : List TcpPacketChunk) :
    ∃ taken rest, Drained h s queued taken rest := by
  induction queued generalizing h s with
  | nil => exact ⟨[], [], rfl, rfl, rfl, rfl⟩
  | cons q queued ih =>
    by_cases hq : q.startSeq = s.lastSeq
    · obtain ⟨taken, rest, hd⟩ := ih (handOver h s q).1 (handOver h s q).2.1
      refine ⟨q :: taken, rest, by rw [hd.queue]; rfl, ?_, ⟨hq, hd.consecutive⟩, ?_⟩
      · rw [drainQueued, if_neg (not_not.2 hq)]
        exact hd.result
      · have hseg : q.seg.start = s.lastSeq.toNat := congrArg UInt64.toNat hq
        rw [map_cons, Window.drain, if_neg (not_not.2 hseg)]
        exact hd.window
    · refine ⟨[], q :: queued, rfl, ?_, rfl, ?_⟩
      · rw [drainQueued, if_pos hq]
        rfl
      · have hseg : q.seg.start ≠ s.lastSeq.toNat := fun he => hq (UInt64.toNat_inj.1 he)
        rw [map_cons, Window.drain, if_pos hseg]
        rfl

theorem insertQueued_seg (chunk : TcpPacketChunk) (queued : List TcpPacketChunk) :
    Window.insert chunk.seg (queued.map TcpPacketChunk.seg) =
      (insertQueued chunk queued).map (map TcpPacketChunk.seg) := by
  have hlt : (fun q : Seg => decide ¬chunk.seg.start < q.start) ∘ TcpPacketChunk.seg =
      fun q : TcpPacketChunk => decide ¬q.startSeq > chunk.startSeq := by
    funext q
    have : chunk.seg.start < q.seg.start ↔ q.startSeq > chunk.startSeq :=
      UInt64.lt_iff_toNat_lt.symm
    simp only [Function.comp_apply, this]
  unfold Window.insert insertQueued
  rw [dropWhile_map, takeWhile_map, hlt]
  cases queued.dropWhile fun q => decide ¬q.startSeq > chunk.startSeq with
  | nil => simp
  | cons q rest =>
    simp only [map_cons]
    have hend : q.seg.start < chunk.seg.stop ↔ chunk.endSeq > q.startSeq := by
      simp [TcpPacketChunk.seg, UInt64.lt_iff_toNat_lt]
    by_cases hgt : chunk.endSeq > q.startSeq
    · rw [if_pos hgt, if_pos (hend.2 hgt)]
      rfl
    · rw [if_neg hgt, if_neg fun h => hgt (hend.1 h)]
      simp

theorem insertQueued_perm {queued' : List TcpPacketChunk}
    (h : insertQueued chunk queued = some queued') : queued'.Perm (chunk :: queued) := by
  unfold insertQueued at h
  have hsplit := takeWhile_append_dropWhile
    (p := fun q : TcpPacketChunk => decide ¬q.startSeq > chunk.startSeq) (l := queued)
  cases hd : queued.dropWhile fun q => decide ¬q.startSeq > chunk.startSeq with
  | nil =>
    rw [hd] at hsplit h
    obtain rfl := Option.some.inj h
    rw [append_nil] at hsplit
    rw [hsplit]
    exact perm_append_singleton ..
  | cons q rest =>
    rw [hd] at hsplit h
    dsimp only at h
    split_ifs at h
    obtain rfl := Option.some.inj h
    nth_rewrite 2 [← hsplit]
    exact perm_middle

theorem startSeq_ne (s : TcpStream) : s.startSeq.toUInt64 ≠ -1 := by
  intro h0
  have h1 : s.startSeq.toUInt64.toNat = (-1 : UInt64).toNat := congrArg UInt64.toNat h0
  have h2 : s.startSeq.toNat < 2 ^ 32 := s.startSeq.toNat_lt
  rw [UInt32.toNat_toUInt64] at h1
  have h3 : (-1 : UInt64).toNat = 2 ^ 64 - 1 := by decide
  omega

/-- **Push.** A push hands over the packet and a front of the queue, puts the packet into the queue,
or changes nothing. On sequence numbers it is a push to the reassembly window. -/
theorem push_cases (h : Heap) (s : TcpStream) (tcp : Tcp) :
    ((∃ taken rest, s.lastSeq = (tcpChunk s tcp).startSeq ∧ s.queued = taken ++ rest ∧
        (tcpStreamPush h s tcp).1 = (handAll h s (tcpChunk s tcp :: taken)).1 ∧
        (tcpStreamPush h s tcp).2.1 =
          { (handAll h s (tcpChunk s tcp :: taken)).2 with queued := rest } ∧
        Consecutive s.lastSeq (tcpChunk s tcp :: taken)
          (handAll h s (tcpChunk s tcp :: taken)).2.lastSeq) ∨
      (tcpStreamPush h s tcp).1 = h ∧
        ((∃ queued, queued.Perm (tcpChunk s tcp :: s.queued) ∧
          (tcpStreamPush h s tcp).2.1 = { s with queued := queued }) ∨
        (tcpStreamPush h s tcp).2.1 = s)) ∧
    (tcpStreamPush h s tcp).2.1.window = s.window.push (tcpChunk s tcp).seg := by
  unfold tcpStreamPush Window.push
  rw [if_neg (startSeq_ne s)]
  dsimp only
  generalize tcpChunk s tcp = chunk
  by_cases heq : s.lastSeq = chunk.startSeq
  · have heq' : s.window.last = chunk.seg.start := congrArg UInt64.toNat heq
    rw [if_pos heq, if_pos heq']
    obtain ⟨taken, rest, hd⟩ := drain_spec (handOver h s chunk).1 (handOver h s chunk).2.1 s.queued
    have hw := hd.window
    rw [handOver_queued, hd.result]
    refine ⟨.inl ⟨taken, rest, heq, hd.queue, rfl, rfl, heq.symm, ?_⟩, ?_⟩
    · have hc := hd.consecutive
      exact hc
    · exact hw.symm
  have heq' : s.window.last ≠ chunk.seg.start := fun h0 => heq (UInt64.toNat_inj.1 h0)
  have hlt : s.window.last < chunk.seg.start ↔ chunk.startSeq > s.lastSeq :=
    UInt64.lt_iff_toNat_lt.symm
  rw [if_neg heq, if_neg heq']
  by_cases hgt : chunk.startSeq > s.lastSeq
  · rw [if_pos hgt, if_pos (hlt.2 hgt)]
    have hq : s.window.queued = s.queued.map TcpPacketChunk.seg := rfl
    rw [hq, insertQueued_seg]
    cases hi : insertQueued chunk s.queued with
    | some queued => exact ⟨.inr ⟨rfl, .inl ⟨queued, insertQueued_perm hi, rfl⟩⟩, rfl⟩
    | none => exact ⟨.inr ⟨rfl, .inr rfl⟩, rfl⟩
  · rw [if_neg hgt, if_neg fun h0 => hgt (hlt.1 h0)]
    exact ⟨.inr ⟨rfl, .inr rfl⟩, rfl⟩

variable {P : Heap → TcpStream → List TcpPacketChunk → Prop}

section

variable (hstep : ∀ h s c l, c.startSeq = s.lastSeq → P h s (c :: l) → P (handOver h s c).1 (handOver h s c).2.1 l)

include hstep

/-- **Induction over the chunks handed over.** What one hand-over keeps of the stream and the chunks
still waiting, all of them keep. -/
theorem handAll_rule
    {taken rest : List TcpPacketChunk} {b : UInt64} (hc : Consecutive s.lastSeq taken b)
    (hP : P h s (taken ++ rest)) : P (handAll h s taken).1 (handAll h s taken).2 rest := by
  induction taken generalizing h s with
  | nil => exact hP
  | cons c taken ih =>
    refine ih ?_ (hstep h s c (taken ++ rest) hc.1 hP)
    exact hc.2

/-- **Induction over a push.** A property of the stream and its waiting chunks, in any order, that a
hand-over keeps is kept by a push of a packet that has it. -/
theorem push_rule
    (hperm : ∀ h s l l', l'.Perm l → P h s l → P h s l')
    (hqueued : ∀ h s l q, P h s l → P h { s with queued := q } l) {tcp : Tcp}
    (hnew : P h s (tcpChunk s tcp :: s.queued)) (hold : P h s s.queued) :
    P (tcpStreamPush h s tcp).1 (tcpStreamPush h s tcp).2.1 (tcpStreamPush h s tcp).2.1.queued := by
  rcases (push_cases h s tcp).1 with
    ⟨taken, rest, -, hq, hh, hs, hc⟩ | ⟨hh, ⟨queued, hp, hs⟩ | hs⟩
  · rw [hh, hs]
    rw [hq] at hnew
    exact hqueued _ _ rest _ (handAll_rule hstep hc hnew)
  · rw [hh, hs]
    exact hqueued _ _ _ _ (hperm _ _ _ _ hp hnew)
  · rw [hh, hs]
    exact hold

end

/-- A push leaves what was sent as it is. -/
structure SameSent (s s' : TcpStream) : Prop where
  startSeq : s'.startSeq = s.startSeq
  lastSentSeq : s'.lastSentSeq = s.lastSentSeq
  firstOffsetSeq : s'.firstOffsetSeq = s.firstOffsetSeq
  sent : s'.sent = s.sent

theorem push_sameSent (h : Heap) (s : TcpStream) (tcp : Tcp) :
    SameSent s (tcpStreamPush h s tcp).2.1 :=
  push_rule (P := fun _ s' _ => SameSent s s')
    (fun _ _ _ _ _ hs => ⟨hs.startSeq, hs.lastSentSeq, hs.firstOffsetSeq, hs.sent⟩)
    (fun _ _ _ _ _ hs => hs)
    (fun _ _ _ _ hs => ⟨hs.startSeq, hs.lastSentSeq, hs.firstOffsetSeq, hs.sent⟩)
    ⟨rfl, rfl, rfl, rfl⟩ ⟨rfl, rfl, rfl, rfl⟩

end Push

/-! ## What a pop does -/

/-- **Pop.** A pop takes the first chunk of `current` with the data the buffer stream gives, or only
cleans the buffer stream. -/
theorem tcpPop_cases (h : Heap) (s : TcpStream) : tcpStreamPop h s = (h, s, none) ∨
    (∃ h' buffers, vbufferStreamPop h s.stream = (h', buffers, none) ∧
      tcpStreamPop h s = (h', { s with stream := buffers }, none)) ∨
    ∃ chunk current h' buffers available u, s.current = chunk :: current ∧
      vbufferStreamPop h s.stream = (h', buffers, some (available, u)) ∧
      tcpStreamPop h s = (h', popStream s chunk current buffers available,
        some (popPacket s chunk available)) := by
  unfold tcpStreamPop
  cases hcur : s.current with
  | nil => exact .inl rfl
  | cons chunk current =>
    right
    rcases hp : vbufferStreamPop h s.stream with ⟨h', buffers, _ | ⟨available, u⟩⟩
    · exact .inl ⟨h', buffers, rfl, rfl⟩
    · exact .inr ⟨chunk, current, h', buffers, available, u, rfl, rfl, rfl⟩

@[simp] theorem popPacket_payload (s : TcpStream) (chunk : TcpPacketChunk) (available : Vbuffer) :
    (popPacket s chunk available).payload = available := by
  unfold popPacket tcpStreamSeq tcpSetSeq tcpActionDrop
  dsimp only
  split_ifs <;> rfl

/-! ## The machine -/

/-- A call on a TCP stream, or an edit of the data of its buffer stream. -/
inductive TcpCall where
  | push (tcp : Tcp)
  | pop
  | edit (data : Vbuffer)

/-- What is seen of a popped packet: its sequence number, its payload and the length of it, and
`tcp_stream_lastseq` after the pop. -/
structure Popped where
  seq : UInt32
  bytes : List UInt8
  length : ℕ
  lastseq : UInt32

def poppedBytes (out : Option Popped) : List UInt8 := out.elim [] Popped.bytes

/-- One call, in the heap its caller has at that moment. -/
def tcpStep (σ : Heap × TcpStream) (i : Heap × TcpCall) : (Heap × TcpStream) × Option Popped :=
  let s := σ.2
  let h := i.1
  match i.2 with
  | .push tcp => (((tcpStreamPush h s tcp).1, (tcpStreamPush h s tcp).2.1), none)
  | .pop =>
    let r := tcpStreamPop h s
    ((r.1, r.2.1), r.2.2.map fun tcp =>
      ⟨tcp.seq, tcp.payload.content r.1, vbufferSize tcp.payload, tcpStreamLastseq r.2.1⟩)
  | .edit data => ((h, { s with stream := { s.stream with data := data } }), none)

def dataPacket (seq : UInt32) (payload : Vbuffer) : Tcp :=
  ⟨0, true, true, { ack := true }, seq, 0, payload⟩

def tcpStart (h : Heap) (seq : UInt32) : Heap × TcpStream :=
  ((tcpStreamCreate h).1, tcpStreamInit (tcpStreamCreate h).2 seq)

/-! ## Adjacent chunks -/

/-- The chunks of `sent` follow one another from 0 to `last_sent_seq`, and those of `current` from
there to `last_seq`. -/
structure Ordered (s : TcpStream) : Prop where
  sent : Adjacent TcpStreamChunk.startSeq TcpStreamChunk.endSeq 0 s.sent s.lastSentSeq
  current : Consecutive s.lastSentSeq s.current s.lastSeq

theorem ordered_start (h : Heap) (seq : UInt32) : Ordered (tcpStart h seq).2 := ⟨rfl, rfl⟩

variable {s : TcpStream}

theorem Ordered.adjacent (hs : Ordered s) : Adjacent TcpStreamChunk.startSeq TcpStreamChunk.endSeq 0
      (s.sent ++ s.current.map TcpPacketChunk.toTcpStreamChunk) s.lastSeq :=
  hs.sent.append (adjacent_map.2 hs.current)

variable {chunk : TcpPacketChunk}

theorem Ordered.handOver {h : Heap} (hs : Ordered s)
    (hc : chunk.startSeq = s.lastSeq) : Ordered (handOver h s chunk).2.1 :=
  ⟨hs.sent, hs.current.snoc hc⟩

theorem Ordered.popStream {current : List TcpPacketChunk}
    {buffers : VbufferStream Unit} {available : Vbuffer} (hs : Ordered s)
    (hc : s.current = chunk :: current) :
    Ordered (popStream s chunk current buffers available) := by
  have hcur := hs.current
  rw [hc] at hcur
  exact ⟨hs.sent.snoc hcur.1, hcur.2⟩

end Haka
