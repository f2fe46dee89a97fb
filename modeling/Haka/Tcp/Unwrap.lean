import Haka.Tcp.Safety

/-!
# Sequence numbers on 64 bits

`tcp_remap_seq` looks for the 64-bit number with the given low half that is nearest to a reference.
It takes the block of 2^32 numbers the reference is in or the next one, never the one before. A
number of the block before is found 2^32 too high (`sequence_unwrapped_iff`), and `tcp_stream_push`
takes the segment it belongs to, which was sent long ago, for one that has come too early.
-/

namespace Haka

def Near (x y : ℕ) : Prop := x ≤ y + 2 ^ 31 ∧ y ≤ x + 2 ^ 31

/-- `tcp_remap_seq` finds a number with the low half `seq`, and one near `ref` if there is any. -/
structure Unwraps (seq : UInt32) (ref : UInt64) : Prop where
  congruent : (tcpRemapSeq seq ref).toNat % 2 ^ 32 = seq.toNat
  near : (∃ x, x % 2 ^ 32 = seq.toNat ∧ Near x ref.toNat) →
    Near (tcpRemapSeq seq ref).toNat ref.toNat

theorem unwraps_iff {seq : UInt32} {ref : UInt64} (hr : ref.toNat < 2 ^ 63) :
    Unwraps seq ref ↔ ref.toNat < 2 ^ 32 ∨ seq.toNat ≤ ref.toNat % 2 ^ 32 + 2 ^ 31 := by
  have hseq := seq.toNat_lt
  have hremap : (tcpRemapSeq seq ref).toNat = _ := remap_toNat hr
  have hcongr : (tcpRemapSeq seq ref).toNat % 2 ^ 32 = seq.toNat := by
    rw [hremap]
    split_ifs <;> omega
  constructor
  · intro hu
    by_contra hnot
    have hfar : ¬Near (tcpRemapSeq seq ref).toNat ref.toNat := by
      rw [hremap]
      unfold Near
      split_ifs <;> omega
    -- the number of the block before is near
    have hnear : Near (seq.toNat + ref.toNat / 2 ^ 32 * 2 ^ 32 - 2 ^ 32) ref.toNat := by
      unfold Near
      omega
    exact hfar (hu.near ⟨_, by omega, hnear⟩)
  · intro hcond
    refine ⟨hcongr, ?_⟩
    rintro ⟨x, hx, hnear⟩
    rw [hremap]
    unfold Near at hnear ⊢
    split_ifs <;> omega

/-! ## The position of a segment -/

/-- Where a push sees the start of a packet: before `last_seq`, at it or behind it. -/
def tcpPlace (s : TcpStream) (tcp : Tcp) : Ordering :=
  compare (tcpChunk s tcp).startSeq.toNat s.lastSeq.toNat

variable {s : TcpStream} {tcp : Tcp}

theorem place_lt_iff : tcpPlace s tcp = .lt ↔ (tcpChunk s tcp).startSeq < s.lastSeq := by
  rw [tcpPlace, Nat.compare_eq_lt, UInt64.lt_iff_toNat_lt]

theorem place_eq_iff : tcpPlace s tcp = .eq ↔ (tcpChunk s tcp).startSeq = s.lastSeq := by
  rw [tcpPlace, Nat.compare_eq_eq, UInt64.toNat_inj]

theorem place_gt_iff : tcpPlace s tcp = .gt ↔ (tcpChunk s tcp).startSeq > s.lastSeq := by
  rw [tcpPlace, Nat.compare_eq_gt, gt_iff_lt, UInt64.lt_iff_toNat_lt]

/-- A push treats a packet as one at the position `p`: an old segment is refused, the current one
handed over with those behind it, and a later one queued unless it overlaps the next one there. -/
structure Classifies (h : Heap) (s : TcpStream) (tcp : Tcp) (p : ℕ) : Prop where
  place : tcpPlace s tcp = compare p s.lastSeq.toNat
  old : p < s.lastSeq.toNat →
    tcpStreamPush h s tcp = (h, s, vbufferPosition s.stream.data 0 none, false)
  current : p = s.lastSeq.toNat → ∃ taken rest, s.queued = taken ++ rest ∧
    (tcpStreamPush h s tcp).2.1 = { (handAll h s (tcpChunk s tcp :: taken)).2 with queued := rest }
  future : s.lastSeq.toNat < p → (tcpStreamPush h s tcp).2.1 =
    { s with queued := (insertQueued (tcpChunk s tcp) s.queued).getD s.queued }

section Place

variable {h : Heap} {s : TcpStream} {tcp : Tcp} {p : ℕ}

theorem classifies_of_place (hplace : tcpPlace s tcp = compare p s.lastSeq.toNat) :
    Classifies h s tcp p := by
  refine ⟨hplace, fun hlt => ?_, fun heq => ?_, fun hgt => ?_⟩
  · have hold := place_lt_iff.1 (hplace.trans (Nat.compare_eq_lt.2 hlt))
    unfold tcpStreamPush
    rw [if_neg (startSeq_ne s)]
    rw [if_neg (UInt64.ne_of_lt hold).symm, if_neg (UInt64.not_lt.2 (UInt64.le_of_lt hold))]
  · have hcur := place_eq_iff.1 (hplace.trans (Nat.compare_eq_eq.2 heq))
    obtain ⟨taken, rest, hd⟩ := drain_spec (handOver h s (tcpChunk s tcp)).1
      (handOver h s (tcpChunk s tcp)).2.1 s.queued
    refine ⟨taken, rest, hd.queue, ?_⟩
    unfold tcpStreamPush
    rw [if_neg (startSeq_ne s)]
    dsimp only
    rw [if_pos hcur.symm, handOver_queued, hd.result]
    rfl
  · have hfut := place_gt_iff.1 (hplace.trans (Nat.compare_eq_gt.2 hgt))
    unfold tcpStreamPush
    rw [if_neg (startSeq_ne s)]
    rw [if_neg (UInt64.ne_of_lt hfut), if_pos hfut]
    cases insertQueued (tcpChunk s tcp) s.queued <;> rfl

/-- The chunk of a packet near the last byte sent starts at the position of the packet, or 2^32
bytes behind or before it. A number before `start_seq` is found as one of 64 bits. -/
theorem tcpChunk_near (hp : tcp.packet = true) (hseq : tcp.seq = s.startSeq + UInt32.ofNat p)
    (hlast : s.startSeq.toNat + s.lastSentSeq.toNat < 2 ^ 63) (hnear : Near p s.lastSentSeq.toNat) :
    (tcpChunk s tcp).startSeq.toNat =
      if (s.startSeq.toNat + p) / 2 ^ 32 < (s.startSeq.toNat + s.lastSentSeq.toNat) / 2 ^ 32 then
        p + 2 ^ 32
      else if p = s.lastSentSeq.toNat + 2 ^ 31 ∧
          (s.startSeq.toNat + s.lastSentSeq.toNat) / 2 ^ 32 < (s.startSeq.toNat + p) / 2 ^ 32 then
        if p < 2 ^ 32 then p + (2 ^ 64 - 2 ^ 32) else p - 2 ^ 32
      else p := by
  have hget : tcpGetSeq tcp = tcp.seq := if_pos hp
  have hnat : tcp.seq.toNat = (s.startSeq.toNat + p) % 2 ^ 32 := by
    rw [hseq, UInt32.toNat_add, UInt32.toNat_ofNat']
    omega
  have href : (s.lastSentSeq + s.startSeq.toUInt64).toNat =
      s.startSeq.toNat + s.lastSentSeq.toNat := by
    rw [UInt64.toNat_add, UInt32.toNat_toUInt64]
    omega
  have hchunk : (tcpChunk s tcp).startSeq.toNat = (2 ^ 64 - s.startSeq.toNat +
      (tcpRemapSeq tcp.seq (s.lastSentSeq + s.startSeq.toUInt64)).toNat) % 2 ^ 64 := by
    show (tcpRemapSeq (tcpGetSeq tcp) _ - s.startSeq.toUInt64).toNat = _
    rw [UInt64.toNat_sub, UInt32.toNat_toUInt64, hget]
  rw [remap_toNat (by omega), href, hnat] at hchunk
  unfold Near at hnear
  rw [hchunk]
  split_ifs <;> omega

theorem compare_eq_compare_iff {a b c : ℕ} :
    compare a c = compare b c ↔ (a < c ↔ b < c) ∧ (a = c ↔ b = c) := by
  constructor
  · intro h
    rw [← Nat.compare_eq_lt, ← Nat.compare_eq_eq, h, Nat.compare_eq_lt, Nat.compare_eq_eq]
    exact ⟨Iff.rfl, Iff.rfl⟩
  · rintro ⟨hlt, heq⟩
    rcases lt_trichotomy a c with ha | ha | ha
    · rw [Nat.compare_eq_lt.2 ha, Nat.compare_eq_lt.2 (hlt.1 ha)]
    · rw [Nat.compare_eq_eq.2 ha, Nat.compare_eq_eq.2 (heq.1 ha)]
    · rw [Nat.compare_eq_gt.2 ha, Nat.compare_eq_gt.2 (by omega)]

end Place

/-- **Unwrapping.** A number is unwrapped to the one near the reference exactly if the reference is
in the first block of 2^32 numbers or the one near it is not in the block before. A push treats a
segment within 2^31 bytes of the last byte sent as its position says exactly if that is not in the
block before, or so far before `last_seq` that 2^32 bytes more make no difference; and, if it is
2^31 bytes ahead in the next block, if the number 2^32 before it, on 64 bits, is on the same side of
`last_seq`. -/
theorem sequence_unwrapped_iff (seq : UInt32) (ref : UInt64) (h : Heap) (s : TcpStream) (tcp : Tcp)
    (p : ℕ) :
    (ref.toNat < 2 ^ 63 →
      (Unwraps seq ref ↔ ref.toNat < 2 ^ 32 ∨ seq.toNat ≤ ref.toNat % 2 ^ 32 + 2 ^ 31)) ∧
    (tcp.packet = true → tcp.seq = s.startSeq + UInt32.ofNat p →
      s.startSeq.toNat + s.lastSentSeq.toNat < 2 ^ 63 →
      s.lastSeq.toNat < 2 ^ 63 → Near p s.lastSentSeq.toNat →
      (Classifies h s tcp p ↔
        ((s.startSeq.toNat + p) / 2 ^ 32 < (s.startSeq.toNat + s.lastSentSeq.toNat) / 2 ^ 32 →
          s.lastSeq.toNat < p ∨ p + 2 ^ 32 < s.lastSeq.toNat) ∧
        (p = s.lastSentSeq.toNat + 2 ^ 31 →
          (s.startSeq.toNat + s.lastSentSeq.toNat) / 2 ^ 32 < (s.startSeq.toNat + p) / 2 ^ 32 →
          if p < 2 ^ 32 then s.lastSeq.toNat < p
          else p < s.lastSeq.toNat ∨ s.lastSeq.toNat + 2 ^ 32 < p))) := by
  refine ⟨fun hr => unwraps_iff hr, fun hp hseq hlast hmax hnear => ?_⟩
  have hiff : Classifies h s tcp p ↔ tcpPlace s tcp = compare p s.lastSeq.toNat :=
    ⟨Classifies.place, classifies_of_place⟩
  rw [hiff, tcpPlace, tcpChunk_near hp hseq hlast hnear, compare_eq_compare_iff]
  unfold Near at hnear
  split_ifs <;> omega

/-- The number behind the end of a block is unwrapped to the next block, and the first packet of a
stream is handed over. -/
theorem sequence_unwrapped_start : Unwraps 0 4294967295 ∧
      Classifies (twoBlocks 20) (tcpStart (twoBlocks 10) 4294967294).2
        (dataPacket 4294967294 (blockBuffer 3 1 2)) 0 :=
  have hiff := sequence_unwrapped_iff 0 4294967295 (twoBlocks 20)
    (tcpStart (twoBlocks 10) 4294967294).2 (dataPacket 4294967294 (blockBuffer 3 1 2)) 0
  ⟨(hiff.1 (by decide)).2 (.inl (by decide)),
    (hiff.2 rfl (by decide) (by decide) (by decide) ⟨by decide, by decide⟩).2
      ⟨fun h => absurd h (lt_irrefl _), fun h => absurd h (by decide)⟩⟩

/-- The first two bytes of a stream, up to the end of the first block of sequence numbers, are
pushed and popped. -/
def firstSent : List (Heap × TcpCall) :=
  [(twoBlocks 20, .push (dataPacket 4294967294 (blockBuffer 3 1 2))), (twoBlocks 30, .pop)]

/-- The number before the end of the block is found in the next one, and a packet pushed a second
time, 2 bytes before the last byte sent, is queued. -/
theorem retransmission_is_queued : ¬Unwraps 4294967294 4294967296 ∧
      (Machine.run tcpStep (tcpStart (twoBlocks 10) 4294967294) firstSent).1.2.lastSentSeq = 2 ∧
      (Machine.run tcpStep (tcpStart (twoBlocks 10) 4294967294) firstSent).1.2.lastSeq = 2 ∧
      (tcpStep (Machine.run tcpStep (tcpStart (twoBlocks 10) 4294967294) firstSent).1
        (twoBlocks 40, .push (dataPacket 4294967294 (blockBuffer 35 1 2)))).1.2.queued.map
          (fun c => c.startSeq) = [4294967296] := by
  refine ⟨fun hu => ?_, by decide +kernel, by decide +kernel, by decide +kernel⟩
  exact absurd ((unwraps_iff (by decide)).1 hu) (by decide)

end Haka
