import Haka.Stream.SubStream
import Haka.Tcp.Run

/-!
# Refused pushes

A finished buffer stream refuses every buffer. Its two callers have changed their own state by then:
`vbuffer_sub_stream_push` has taken the data out of the outer buffer, and `tcp_stream_push` does not
look at the answer. A run keeps the chunks of `current` in step with the buffers still to pop
exactly if no packet is handed to a finished stream in it (`refused_push_iff`).
-/

namespace Haka

open List Machine

/-- How many chunks `current` has more than there are buffers to pop. -/
def TcpStream.lead (s : TcpStream) : ℤ := s.current.length - s.stream.chunks.length

def Accepted (σ : Heap × TcpStream) (i : Heap × TcpCall) : Prop :=
  match i.2 with
  | .push tcp => σ.2.lastSeq = (tcpChunk σ.2 tcp).startSeq →
      vbufferStreamIsfinished σ.2.stream = false
  | _ => True

instance (σ : Heap × TcpStream) : ∀ i, Decidable (Accepted σ i)
  | (_, .push tcp) => inferInstanceAs (Decidable (σ.2.lastSeq = (tcpChunk σ.2 tcp).startSeq →
      vbufferStreamIsfinished σ.2.stream = false))
  | (_, .pop) | (_, .edit _) => inferInstanceAs (Decidable True)

/-- A push that is refused changes nothing. -/
structure NoEffect (h : Heap) (s : TcpStream) (tcp : Tcp) : Prop where
  refused : (tcpStreamPush h s tcp).2.2.2 = false
  current : (tcpStreamPush h s tcp).2.1.current = s.current
  lastSeq : (tcpStreamPush h s tcp).2.1.lastSeq = s.lastSeq

section Lead

variable {h : Heap} {s : TcpStream}

theorem handOver_stream (chunk : TcpPacketChunk) :
    vbufferStreamIsfinished (handOver h s chunk).2.1.stream = vbufferStreamIsfinished s.stream ∧
      (handOver h s chunk).2.1.lead =
        s.lead + if vbufferStreamIsfinished s.stream then 1 else 0 := by
  unfold handOver vbufferStreamPush
  cases heof : s.stream.data.last.flags.eof with
  | true =>
    simp only [vbufferStreamIsfinished, TcpStream.lead, heof, if_true, length_append,
      length_singleton, Nat.cast_add, Nat.cast_one, true_and]
    ring
  | false =>
    have hend : (oldEnd { h with next := h.next + 2 } s.stream.id s.stream.data.last).2.flags =
        s.stream.data.last.flags := by
      unfold oldEnd
      split_ifs <;> rfl
    simp [vbufferStreamIsfinished, TcpStream.lead, pushNode, heof, hend]

theorem handAll_lead (chunks : List TcpPacketChunk) : (handAll h s chunks).2.lead =
      s.lead + if vbufferStreamIsfinished s.stream then (chunks.length : ℤ) else 0 := by
  induction chunks generalizing h s with
  | nil => simp
  | cons chunk chunks ih =>
    obtain ⟨hfin, hlead⟩ := handOver_stream chunk
    rw [handAll_cons, ih, hfin, hlead]
    cases vbufferStreamIsfinished s.stream with
    | true =>
      simp only [if_true, length_cons, Nat.cast_succ]
      ring
    | false => simp

theorem pop_chunks {υ : Type} (h : Heap) (s : VbufferStream υ) :
    ((vbufferStreamPop h s).2.2 = none ∧ (vbufferStreamPop h s).2.1.chunks = s.chunks) ∨
      ((vbufferStreamPop h s).2.2.isSome ∧
        ∃ c, s.chunks = c :: (vbufferStreamPop h s).2.1.chunks) := by
  unfold vbufferStreamPop
  cases hc : s.chunks with
  | nil => exact .inl ⟨rfl, hc⟩
  | cons c chunks =>
    dsimp only
    split_ifs
    · exact .inr ⟨rfl, c, rfl⟩
    · exact .inr ⟨rfl, c, rfl⟩
    · exact .inl ⟨rfl, rfl⟩

theorem push_current {tcp : Tcp} (hcur : s.lastSeq = (tcpChunk s tcp).startSeq) :
    ∃ taken rest, (tcpStreamPush h s tcp).2.1 =
        { (handAll h s (tcpChunk s tcp :: taken)).2 with queued := rest } ∧
      (tcpStreamPush h s tcp).2.2.2 = true := by
  obtain ⟨taken, rest, hd⟩ := drain_spec (handOver h s (tcpChunk s tcp)).1
    (handOver h s (tcpChunk s tcp)).2.1 s.queued
  refine ⟨taken, rest, ?_, ?_⟩
  · unfold tcpStreamPush
    rw [if_neg (startSeq_ne s)]
    dsimp only
    rw [if_pos hcur, handOver_queued, hd.result]
    rfl
  · unfold tcpStreamPush
    rw [if_neg (startSeq_ne s)]
    rw [if_pos hcur]

theorem push_other {tcp : Tcp} (hne : s.lastSeq ≠ (tcpChunk s tcp).startSeq) :
    (tcpStreamPush h s tcp).2.1.lead = s.lead := by
  rcases (push_cases h s tcp).1 with ⟨_, _, hcur, -⟩ | ⟨-, ⟨queued, -, heq⟩ | heq⟩
  · exact absurd hcur hne
  · rw [heq]
    rfl
  · rw [heq]

/-- **One call.** The lead never gets smaller, and a call leaves it as it is exactly if it hands no
packet to a finished stream. -/
theorem tcpStep_lead (σ : Heap × TcpStream) (i : Heap × TcpCall) :
    σ.2.lead ≤ (tcpStep σ i).1.2.lead ∧ ((tcpStep σ i).1.2.lead = σ.2.lead ↔ Accepted σ i) := by
  obtain ⟨h₀, s⟩ := σ
  obtain ⟨h, call⟩ := i
  cases call with
  | push tcp =>
    show s.lead ≤ (tcpStreamPush h s tcp).2.1.lead ∧
      ((tcpStreamPush h s tcp).2.1.lead = s.lead ↔
        (s.lastSeq = (tcpChunk s tcp).startSeq → vbufferStreamIsfinished s.stream = false))
    by_cases hcur : s.lastSeq = (tcpChunk s tcp).startSeq
    · obtain ⟨taken, rest, heq, -⟩ := push_current hcur
      have hlead : (tcpStreamPush h s tcp).2.1.lead =
          s.lead + if vbufferStreamIsfinished s.stream then (taken.length + 1 : ℤ) else 0 := by
        rw [heq]
        show (handAll h s (tcpChunk s tcp :: taken)).2.lead = _
        rw [handAll_lead, length_cons, Nat.cast_succ]
      rw [hlead]
      cases vbufferStreamIsfinished s.stream with
      | true =>
        simp only [if_true, hcur, forall_true_left, Bool.true_eq_false, iff_false]
        omega
      | false => simp
    · rw [push_other hcur]
      exact ⟨le_refl _, fun _ h0 => absurd h0 hcur, fun _ => rfl⟩
  | pop =>
    show s.lead ≤ (tcpStreamPop h s).2.1.lead ∧ ((tcpStreamPop h s).2.1.lead = s.lead ↔ True)
    have hlead : (tcpStreamPop h s).2.1.lead = s.lead := by
      have hpop := pop_chunks h s.stream
      rcases tcpPop_cases h s with heq | ⟨h', buffers, hb, heq⟩ |
        ⟨chunk, current, h', buffers, available, u, hc, hb, heq⟩
      · rw [heq]
      · rw [hb] at hpop
        obtain ⟨-, hchunks⟩ | ⟨hsome, -⟩ := hpop
        · have hchunks : buffers.chunks = s.stream.chunks := hchunks
          rw [heq]
          simp [TcpStream.lead, hchunks]
        · cases hsome
      · rw [hb] at hpop
        obtain ⟨hnone, -⟩ | ⟨-, c, hchunks⟩ := hpop
        · cases hnone
        · rw [heq]
          simp [TcpStream.lead, popStream, hc, hchunks]
    rw [hlead]
    exact ⟨le_refl _, fun _ => trivial, fun _ => rfl⟩
  | edit data => exact ⟨le_refl _, fun _ => trivial, fun _ => rfl⟩

end Lead

/-- **Refused pushes.** A push of a range to a finished sub stream leaves the outer buffer its bytes
exactly if the range is empty. A packet at `last_seq` is refused without an effect only if it is not
refused at all. The chunks of `current` are as many as the buffers to pop exactly if no call hands a
packet to a finished stream. -/
theorem refused_push_iff (h : Heap) (stream : VbufferSubStream) (b : Vbuffer) (data : Sub)
    (lo hi : ℕ) (s : TcpStream) (tcp : Tcp) (h₀ : Heap) (seq : UInt32)
    (is : List (Heap × TcpCall)) :
    (b.WF h → b.Covers data lo hi → vbufferStreamIsfinished stream = true →
      ((∃ h' b', vbufferSubStreamPush h stream b data = (h', stream, b', none) ∧
        b'.content h' = b.content h) ↔ lo = hi)) ∧
    (s.lastSeq = (tcpChunk s tcp).startSeq →
      ((vbufferStreamIsfinished s.stream = true → NoEffect h s tcp) ↔
        vbufferStreamIsfinished s.stream = false)) ∧
    ((run tcpStep (tcpStart h₀ seq) is).1.2.current.length =
        (run tcpStep (tcpStart h₀ seq) is).1.2.stream.chunks.length ↔
      Guarded tcpStep Accepted (tcpStart h₀ seq) is) := by
  refine ⟨fun hb hc hfin => ?_, fun hcur => ?_, ?_⟩
  · obtain ⟨h', b', heq, hcontent⟩ := subStreamPush_refused hb hc hfin
    obtain ⟨hle, hmax⟩ := hc.le
    rw [← hb.length_content] at hmax
    constructor
    · rintro ⟨h'', b'', heq', hsame⟩
      obtain ⟨rfl, -, rfl, -⟩ : h' = h'' ∧ stream = stream ∧ b' = b'' ∧ True := by
        rw [heq] at heq'
        simpa using heq'
      have hlen := congrArg length (hcontent.symm.trans hsame)
      rw [length_append, length_take, length_drop] at hlen
      omega
    · rintro rfl
      exact ⟨h', b', heq, by rw [hcontent, take_append_drop]⟩
  · constructor
    · intro hno
      cases hfin : vbufferStreamIsfinished s.stream with
      | true =>
        obtain ⟨_, _, -, htrue⟩ := push_current hcur
        rw [(hno hfin).refused] at htrue
        cases htrue
      | false => rfl
    · intro hfin htrue
      rw [hfin] at htrue
      cases htrue
  · rw [← run_unchanged_iff (fun σ i => (tcpStep_lead σ i).1) (fun σ i => (tcpStep_lead σ i).2)]
    have hstart : (tcpStart h₀ seq).2.lead = 0 := rfl
    rw [hstart]
    unfold TcpStream.lead
    omega

def finishedSubStream : VbufferSubStream := vbufferStreamFinish (vbufferStreamInit helloHeap).2

/-- The packet `ab` is pushed to a stream, which `finish` says is finished before or not. -/
def finishedPush (finish : Bool) : List (Heap × TcpCall) :=
  let data := (tcpStart (twoBlocks 10) 1000).2.stream.data
  let data := { data with last := data.last.setEof finish }
  [(twoBlocks 20, .edit data), (twoBlocks 20, .push (dataPacket 1000 (blockBuffer 3 1 2)))]

/-- An empty range is refused without harm, and a packet that is not refused keeps the two lists in
step. -/
theorem refused_push_empty :
    let σ := (run tcpStep (tcpStart (twoBlocks 10) 1000) (finishedPush false)).1.2
    (∃ h' b', vbufferSubStreamPush helloHeap finishedSubStream helloBuffer
        (vbufferSubCreate helloBuffer 2 (some 0)) = (h', finishedSubStream, b', none) ∧
      b'.content h' = helloBuffer.content helloHeap) ∧
    σ.current.length = σ.stream.chunks.length := by
  intro σ
  have hiff := refused_push_iff helloHeap finishedSubStream helloBuffer
    (vbufferSubCreate helloBuffer 2 (some 0)) 2 2 (tcpStart (twoBlocks 10) 1000).2
    (dataPacket 1000 (blockBuffer 3 1 2)) (twoBlocks 10) 1000 (finishedPush false)
  exact ⟨(hiff.1 helloBuffer_wf (subCreate_covers 2 0 helloBuffer_wf) rfl).2 rfl,
    hiff.2.2.2 (by decide +kernel)⟩

/-- The bytes `ell` that a finished sub stream refuses are gone from the outer buffer, and a packet
that a finished TCP stream refuses is reported as taken, and counted. -/
theorem refused_push_loses :
    let push := vbufferSubStreamPush helloHeap finishedSubStream helloBuffer
      (vbufferSubCreate helloBuffer 1 (some 3))
    let finished := (run tcpStep (tcpStart (twoBlocks 10) 1000) ((finishedPush true).take 1)).1.2
    let σ := (run tcpStep (tcpStart (twoBlocks 10) 1000) (finishedPush true)).1.2
    push.2.2.2 = none ∧ push.2.2.1.content helloHeap = [104, 111] ∧
      (tcpStreamPush (twoBlocks 20) finished (dataPacket 1000 (blockBuffer 3 1 2))).2.2.2 = true ∧
      σ.current.length = 1 ∧ σ.lastSeq = 2 ∧ σ.stream.chunks.length = 0 := by
  refine ⟨by decide +kernel, by decide +kernel, by decide +kernel, by decide +kernel,
    by decide +kernel, by decide +kernel⟩

end Haka
