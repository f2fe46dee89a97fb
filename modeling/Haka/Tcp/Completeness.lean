import Haka.Tcp.Safety

/-!
# Reassembled data is all that can be delivered

Segments of one byte stream are pushed in any order. As long as no segment overlaps the queued
ones (`Window.Fits`), no queued chunk starts at or before `last_seq`, and every position reached by
adjacent segments is reached by the buffer stream.

A segment that is pushed twice before its turn stands twice in the queue. The loop that hands over
queued chunks stops at the second copy, and everything behind it stays in the queue.
-/

namespace Haka

open Reassembly Machine Segments

variable {D : List UInt8}

theorem flatten_slices {a b : UInt64} {chunks : List TcpPacketChunk} (hc : Consecutive a chunks b)
    (hin : ∀ c ∈ chunks, c.startSeq.toNat ≤ c.endSeq.toNat) :
    a.toNat ≤ b.toNat ∧
    (chunks.map fun c => slice D c.startSeq.toNat c.endSeq.toNat).flatten =
      slice D a.toNat b.toNat := by
  induction chunks generalizing a with
  | nil =>
    obtain rfl : a = b := hc
    simp [slice]
  | cons c chunks ih =>
    obtain ⟨rfl, hrest⟩ : c.startSeq = a ∧ _ := hc
    obtain ⟨hle, heq⟩ := ih hrest fun x hx => hin x (by simp [hx])
    have hle' := hin c (by simp)
    refine ⟨hle'.trans hle, ?_⟩
    rw [List.map_cons, List.flatten_cons, heq, slice_append hle' hle]

/-! ## Runs of pushes -/

/-- A push of a slice of `D` that fits the window. -/
def FitsCall (D : List UInt8) (σ : Heap × TcpStream) (i : Heap × TcpCall) : Prop :=
  SliceCall D σ i ∧
  match i.2 with
  | .push tcp => σ.2.window.Fits (tcpSegment σ.2.startSeq tcp)
  | _ => False

instance (D : List UInt8) (σ : Heap × TcpStream) : ∀ i, Decidable (FitsCall D σ i)
  | (h, .push tcp) => inferInstanceAs (Decidable (SliceCall D σ (h, .push tcp) ∧
      σ.2.window.Fits (tcpSegment σ.2.startSeq tcp)))
  | (h, .pop) => inferInstanceAs (Decidable (SliceCall D σ (h, .pop) ∧ False))
  | (h, .edit data) => inferInstanceAs (Decidable (SliceCall D σ (h, .edit data) ∧ False))

def TcpCall.segs (seq : UInt32) : TcpCall → List Seg
  | push tcp => [tcpSegment seq tcp]
  | _ => []

def pushedSegs (seq : UInt32) (is : List (Heap × TcpCall)) : List Seg :=
  is.flatMap fun i => i.2.segs seq

/-- The stream after pushes only, and the segments that were pushed. -/
structure PushedInv (D : List UInt8) (seq : UInt32) (σ : Heap × TcpStream) (seen : List Seg) :
    Prop where
  safe : SafeInv D σ.1 σ.2 σ.2.queued
  start : σ.2.startSeq = seq
  sent : σ.2.lastSentSeq = 0
  reads : σ.2.stream.readChunks = []
  complete : σ.2.window.Complete seen

theorem push_readChunks (h : Heap) (s : TcpStream) (tcp : Tcp) (hr : s.stream.readChunks = []) :
    (tcpStreamPush h s tcp).2.1.stream.readChunks = [] := by
  refine push_rule (P := fun _ s _ => s.stream.readChunks = []) (fun h s c l _ hs => ?_)
    (fun _ _ _ _ _ hs => hs) (fun _ _ _ _ hs => hs) hr hr
  rw [← hs]
  unfold handOver vbufferStreamPush
  split_ifs <;> rfl

theorem tcpChunk_seg {h : Heap} {s : TcpStream} {tcp : Tcp} (hD : D.length < 2 ^ 31)
    (ht : SliceOk D h s tcp) (hs : s.lastSentSeq = 0) :
    (tcpChunk s tcp).seg = tcpSegment s.startSeq tcp := by
  have hin := ht.inside
  have hstop : (tcpSegment s.startSeq tcp).stop =
      (tcpSegment s.startSeq tcp).start + vbufferSize tcp.payload := rfl
  have hstart : (tcpChunk s tcp).startSeq.toNat = (tcpSegment s.startSeq tcp).start := by
    have hs0 : s.lastSentSeq.toNat = 0 := by rw [hs]; rfl
    rcases tcpChunk_start (s := s) ht.packet (by omega) (by omega) with h0 | ⟨h0, -⟩
    · exact h0
    · exact absurd hs h0
  have hend := tcpChunk_end ht.packet (s := s) (by omega)
  have hend' : (tcpChunk s tcp).endSeq.toNat = (tcpSegment s.startSeq tcp).stop := by omega
  unfold TcpPacketChunk.seg
  rw [hstart, hend']

variable {seq : UInt32} {σ : Heap × TcpStream} {seen : List Seg}

theorem pushed_step {i : Heap × TcpCall}
    (hD : D.length < 2 ^ 31) (hs : PushedInv D seq σ seen) (hi : FitsCall D σ i) : PushedInv D seq (tcpStep σ i).1 (seen ++ i.2.segs seq) := by
  obtain ⟨h0, s⟩ := σ
  obtain ⟨h, call⟩ := i
  obtain ⟨⟨hk, hslice⟩, hfit⟩ := hi
  cases call with
  | pop => exact absurd hfit id
  | edit data => exact absurd hfit id
  | push tcp =>
    have hstart : s.startSeq = seq := hs.start
    have hsame := push_sameSent h s tcp
    refine ⟨safe_push hD (hs.safe.keeps hk) hslice, hsame.startSeq.trans hs.start,
      hsame.lastSentSeq.trans hs.sent, push_readChunks h s tcp hs.reads, ?_⟩
    show Window.Complete (tcpStreamPush h s tcp).2.1.window (seen ++ [tcpSegment seq tcp])
    rw [(push_cases h s tcp).2, tcpChunk_seg hD hslice hs.sent, hstart]
    have hfit' : s.window.Fits (tcpSegment seq tcp) := hstart ▸ hfit
    exact Window.push_complete hs.complete hfit' (Nat.le_add_right _ _)

theorem pushed_run
    {is : List (Heap × TcpCall)} (hD : D.length < 2 ^ 31) (hs : PushedInv D seq σ seen)
    (hcalls : Guarded tcpStep (FitsCall D) σ is) :
    PushedInv D seq (run tcpStep σ is).1 (seen ++ pushedSegs seq is) := by
  induction is generalizing σ seen with
  | nil => simpa [pushedSegs] using hs
  | cons i is ih =>
    have hrest := ih (pushed_step hD hs hcalls.1) hcalls.2
    rwa [List.append_assoc] at hrest

/-- **Reassembly is complete.** In every run of pushes of slices that fit the window, no queued
chunk starts at or before `last_seq`, and where adjacent segments cover the byte stream up to `n`,
its first `n` bytes are in the buffer stream. -/
theorem tcp_reassembly_complete (D : List UInt8) (hD : D.length < 2 ^ 31) (h : Heap) (seq : UInt32)
    (is : List (Heap × TcpCall)) (hcalls : Guarded tcpStep (FitsCall D) (tcpStart h seq) is) :
    (∀ q ∈ (run tcpStep (tcpStart h seq) is).1.2.queued,
      (run tcpStep (tcpStart h seq) is).1.2.lastSeq < q.startSeq) ∧
    ∀ (chain : List Seg) (n : ℕ), (∀ g ∈ chain, g ∈ pushedSegs seq is) →
      Adjacent Seg.start Seg.stop 0 chain n →
      n ≤ (run tcpStep (tcpStart h seq) is).1.2.lastSeq.toNat ∧
      D.take n <+: (run tcpStep (tcpStart h seq) is).1.2.stream.data.content
        (run tcpStep (tcpStart h seq) is).1.1 := by
  have hinit : PushedInv D seq (tcpStart h seq) [] :=
    ⟨safe_start D h seq, rfl, rfl, rfl, Window.complete_init⟩
  have hrun := pushed_run hD hinit hcalls
  generalize run tcpStep (tcpStart h seq) is = r at hrun
  refine ⟨fun q hq => ?_, fun chain n hc hadj => ?_⟩
  · exact UInt64.lt_iff_toNat_lt.2 (hrun.complete.after q.seg (List.mem_map_of_mem hq))
  · have hn := hrun.complete.covers hc hadj (Nat.zero_le _)
    refine ⟨hn, ?_⟩
    obtain ⟨pend, hf, hpend⟩ := hrun.safe.held
    obtain ⟨-, hflat⟩ := flatten_slices hrun.safe.ordered.current
      fun c hc => (hrun.safe.inside c hc).1
    have hzero : r.1.2.lastSentSeq.toNat = 0 := by rw [hrun.sent]; rfl
    have hcontent : r.1.2.stream.data.content r.1.1 = D.take r.1.2.lastSeq.toNat := by
      rw [hf.content hrun.reads, hpend, hflat, hzero]
      simp [slice]
    rw [hcontent]
    exact List.take_prefix_take_left hn

/-- The three segments of `ababc`, the last one first. -/
def reversedRun : List (Heap × TcpCall) :=
  [(twoBlocks 20, .push (dataPacket 9 (blockBuffer 5 2 1))),
    (twoBlocks 30, .push (dataPacket 7 (blockBuffer 3 1 2))),
    (twoBlocks 40, .push (dataPacket 5 (blockBuffer 7 1 2)))]

theorem tcp_reassembly_complete_reversed :
    (run tcpStep (tcpStart (twoBlocks 10) 5) reversedRun).1.2.lastSeq = 5 ∧
    (∀ q ∈ (run tcpStep (tcpStart (twoBlocks 10) 5) reversedRun).1.2.queued,
      (run tcpStep (tcpStart (twoBlocks 10) 5) reversedRun).1.2.lastSeq < q.startSeq) ∧
    ∀ (chain : List Seg) (n : ℕ), (∀ g ∈ chain, g ∈ pushedSegs 5 reversedRun) →
      Adjacent Seg.start Seg.stop 0 chain n →
      n ≤ (run tcpStep (tcpStart (twoBlocks 10) 5) reversedRun).1.2.lastSeq.toNat ∧
      List.take n [97, 98, 97, 98, 99] <+:
        (run tcpStep (tcpStart (twoBlocks 10) 5) reversedRun).1.2.stream.data.content
          (run tcpStep (tcpStart (twoBlocks 10) 5) reversedRun).1.1 :=
  ⟨by decide +kernel, tcp_reassembly_complete [97, 98, 97, 98, 99] (by decide) (twoBlocks 10) 5
    reversedRun (by decide +kernel)⟩

/-- The same segments, the middle one pushed twice before its turn. -/
def duplicatedRun : List (Heap × TcpCall) :=
  [(twoBlocks 20, .push (dataPacket 7 (blockBuffer 3 1 2))),
    (twoBlocks 30, .push (dataPacket 7 (blockBuffer 7 1 2))),
    (twoBlocks 40, .push (dataPacket 9 (blockBuffer 5 2 1))),
    (twoBlocks 50, .push (dataPacket 5 (blockBuffer 9 1 2)))]

/-- The copy of the middle segment keeps the last segment in the queue: adjacent segments cover five
bytes, and four are handed over. -/
theorem duplicate_blocks_queue :
    Guarded tcpStep (SliceCall [97, 98, 97, 98, 99]) (tcpStart (twoBlocks 10) 5) duplicatedRun ∧
    Adjacent Seg.start Seg.stop 0 [⟨0, 2⟩, ⟨2, 4⟩, ⟨4, 5⟩] 5 ∧
    (∀ g ∈ [⟨0, 2⟩, ⟨2, 4⟩, ⟨4, 5⟩], g ∈ pushedSegs 5 duplicatedRun) ∧
    (run tcpStep (tcpStart (twoBlocks 10) 5) duplicatedRun).1.2.lastSeq = 4 ∧
    (run tcpStep (tcpStart (twoBlocks 10) 5) duplicatedRun).1.2.queued.map TcpPacketChunk.seg =
      [⟨2, 4⟩, ⟨4, 5⟩] :=
  ⟨by decide +kernel, ⟨rfl, rfl, rfl, rfl⟩, by decide +kernel, by decide +kernel, by decide +kernel⟩

end Haka
