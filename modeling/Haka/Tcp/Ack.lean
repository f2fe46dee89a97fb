import Haka.Lib.Blocks
import Haka.Tcp.Run

/-!
# Translated acknowledgements

The data of a stream may be edited before it is sent, so the peer acknowledges positions in the
rewritten data. `tcp_stream_ack` walks over the sent chunks to find the position in the original
data. It subtracts from the acknowledgement what the edits of the passed chunks have added. The
walk is to the 64-bit difference of the acknowledgement and `start_seq`. After a wrap of the 32-bit
sequence numbers this is not the position that was acknowledged, but one behind all data or, 2^32 or
more bytes into the data, one too early.
-/

namespace Haka

open List Blocks Reassembly Machine

/-! ## The sent chunks -/

def TcpStreamChunk.imageLen (c : TcpStreamChunk) : ℕ :=
  (c.endSeq - c.startSeq + c.offsetSeq.toUInt64).toNat

def images (sent : List TcpStreamChunk) : List ℕ := sent.map TcpStreamChunk.imageLen

/-- Where the first `m` chunks end in the original data, when they start at `a`. -/
def originalEnd (a : UInt64) (sent : List TcpStreamChunk) (m : ℕ) : UInt64 :=
  ((sent.take m).map TcpStreamChunk.endSeq).getLastD a

@[simp] theorem originalEnd_zero (a : UInt64) (sent : List TcpStreamChunk) :
    originalEnd a sent 0 = a := rfl

@[simp] theorem originalEnd_cons (a : UInt64) (c : TcpStreamChunk) (sent : List TcpStreamChunk)
    (m : ℕ) : originalEnd a (c :: sent) (m + 1) = originalEnd c.endSeq sent m := by
  unfold originalEnd
  rw [take_succ_cons, map_cons, getLastD_cons]

/-- What the edits of the first `m` chunks have added to the data. -/
def drift (sent : List TcpStreamChunk) (m : ℕ) : UInt32 :=
  UInt32.ofNat (offset (images sent) m) - (originalEnd 0 sent m).toUInt32

/-- How many sent chunks end at or before an acknowledgement, by its 64-bit difference to
`start_seq`. -/
def TcpStream.reached (s : TcpStream) (ackSeq : UInt32) : ℕ :=
  passed (images s.sent) (ackSeq.toUInt64 - s.startSeq.toUInt64).toNat

/-- The sent chunks are adjacent from 0, and their data has at most 2⁶⁴ - 2³² bytes after the
edits. -/
structure SentRow (s : TcpStream) : Prop where
  offset : s.sentOffsetSeq = 0
  adjacent : Adjacent TcpStreamChunk.startSeq TcpStreamChunk.endSeq 0 s.sent s.lastSentSeq
  total : (images s.sent).sum + 2 ^ 32 ≤ 2 ^ 64

/-- In every run the chunks are adjacent. -/
theorem sentRow_run (h : Heap) (seq : UInt32) (is : List (Heap × TcpCall))
    (htotal : (images (run tcpStep (tcpStart h seq) is).1.2.sent).sum + 2 ^ 32 ≤ 2 ^ 64) :
    SentRow (run tcpStep (tcpStart h seq) is).1.2 := by
  have hstep : ∀ (σ : Heap × TcpStream) (i : Heap × TcpCall),
      Ordered σ.2 ∧ σ.2.sentOffsetSeq = 0 → True →
      Ordered (tcpStep σ i).1.2 ∧ (tcpStep σ i).1.2.sentOffsetSeq = 0 := by
    rintro ⟨h₀, s⟩ ⟨h, _ | _ | data⟩ ⟨ho, hz⟩ -
    · exact push_rule (P := fun _ s _ => Ordered s ∧ s.sentOffsetSeq = 0)
        (fun _ _ _ _ hc hs => ⟨hs.1.handOver hc, hs.2⟩) (fun _ _ _ _ _ hs => hs)
        (fun _ _ _ _ hs => ⟨⟨hs.1.sent, hs.1.current⟩, hs.2⟩) ⟨ho, hz⟩ ⟨ho, hz⟩
    · rcases tcpPop_cases h s with hp | ⟨h', buffers, -, hp⟩ |
        ⟨chunk, current, h', buffers, available, u, hcur, -, hp⟩
      · simp only [tcpStep, hp]
        exact ⟨ho, hz⟩
      · simp only [tcpStep, hp]
        exact ⟨⟨ho.sent, ho.current⟩, hz⟩
      · simp only [tcpStep, hp]
        exact ⟨ho.popStream hcur, hz⟩
    · exact ⟨⟨ho.sent, ho.current⟩, hz⟩
  obtain ⟨ho, hz⟩ := run_invariant hstep ⟨ordered_start h seq, rfl⟩ (guarded_true (tcpStart h seq) is)
  exact ⟨hz, ho.sent, htotal⟩

/-! ## The walk -/

theorem ackLoop_cons {ack seq newSeq next : UInt64} {c : TcpStreamChunk} (l : List TcpStreamChunk)
    (h : next = seq + (c.endSeq - c.startSeq) + c.offsetSeq.toUInt64) :
    ackLoop ack seq newSeq (c :: l) = if next > ack then (seq, newSeq)
      else if ack ≤ next then (next, c.endSeq) else ackLoop ack next c.endSeq l := by
  rw [h, ackLoop]

/-- **The walk.** It stops where the chunks passed end, in the rewritten and in the original data. -/
theorem ackLoop_spec {ack seq newSeq : UInt64} {l : List TcpStreamChunk} (hseq : seq ≤ ack)
    (htotal : seq.toNat + (images l).sum < 2 ^ 64) :
    ackLoop ack seq newSeq l =
      (seq + UInt64.ofNat (offset (images l) (passed (images l) (ack.toNat - seq.toNat))),
        originalEnd newSeq l (passed (images l) (ack.toNat - seq.toNat))) := by
  induction l generalizing seq newSeq with
  | nil => simp [ackLoop, images]
  | cons c l ih =>
    have himages : images (c :: l) = c.imageLen :: images l := rfl
    rw [himages] at htotal ⊢
    rw [sum_cons] at htotal
    obtain ⟨next, hn⟩ : ∃ next, next = seq + (c.endSeq - c.startSeq) + c.offsetSeq.toUInt64 :=
      ⟨_, rfl⟩
    have hsum : ∀ n, next + UInt64.ofNat n = seq + UInt64.ofNat (c.imageLen + n) := by
      intro n
      have himage : UInt64.ofNat c.imageLen = c.endSeq - c.startSeq + c.offsetSeq.toUInt64 :=
        UInt64.ofNat_toNat
      rw [hn, UInt64.ofNat_add, himage]
      simp only [UInt64.add_assoc]
    have hnext : next.toNat = seq.toNat + c.imageLen := by
      have h : next = seq + UInt64.ofNat c.imageLen := by simpa using hsum 0
      rw [h, UInt64.toNat_add, UInt64.toNat_ofNat', Nat.add_mod_mod, Nat.mod_eq_of_lt (by omega)]
    have hle : seq.toNat ≤ ack.toNat := UInt64.le_iff_toNat_le.1 hseq
    rw [ackLoop_cons l hn, passed_cons]
    rcases lt_trichotomy ack.toNat next.toNat with h | h | h
    · have h0 : ack.toNat - seq.toNat < c.imageLen := by omega
      rw [if_pos (UInt64.lt_iff_toNat_lt.2 h), if_pos h0]
      simp
    · have h0 : ¬ack.toNat - seq.toNat < c.imageLen := by omega
      have h1 : ack.toNat - seq.toNat ≤ c.imageLen := by omega
      obtain rfl := UInt64.toNat_inj.1 h
      rw [if_neg (UInt64.lt_irrefl _), if_pos (UInt64.le_refl _), if_neg h0, if_pos h1]
      simpa using hsum 0
    · have h0 : ¬ack.toNat - seq.toNat < c.imageLen := by omega
      have h1 : ¬ack.toNat - seq.toNat ≤ c.imageLen := by omega
      have hlt : next < ack := UInt64.lt_iff_toNat_lt.2 h
      rw [if_neg (UInt64.not_lt.2 (UInt64.le_of_lt hlt)), if_neg (UInt64.not_le.2 hlt), if_neg h0,
        if_neg h1, ih (UInt64.le_of_lt hlt) (by omega), hnext, Nat.sub_sub, offset_cons,
        hsum, originalEnd_cons]

/-! ## The acknowledgement written -/

theorem remapSeq_zero (ackSeq : UInt32) : tcpRemapSeq ackSeq 0 = ackSeq.toUInt64 := by
  have h0 : ((0 : UInt64) >>> 32) <<< 32 = 0 := by decide
  unfold tcpRemapSeq
  rw [h0, UInt64.add_zero, if_neg (UInt64.not_lt.2 (UInt64.zero_le))]

theorem ack_arith (e a b n : UInt32) : e + (a - b - n) + b = a - (n - e) := by
  grind

theorem ack_target_iff (b n d e : UInt32) : b + n - d = b + e ↔ d = n - e := by
  grind

theorem translated_arith (b m d e : UInt32) : b + (m + d) - (m - e) - b = e + d := by
  grind

variable {tcp : Tcp}

theorem ackSeq_written (hp : tcp.packet = true) (hw : tcp.writable = true) (newSeq : UInt64) :
    (if tcp.ackSeq.toUInt64 ≠ newSeq then tcpSetAckSeq tcp newSeq.toUInt32 else tcp).ackSeq =
      newSeq.toUInt32 := by
  by_cases h : tcp.ackSeq.toUInt64 = newSeq
  · rw [if_neg (not_not.2 h), ← h, UInt32.toUInt32_toUInt64]
  · rw [if_pos h]
    simp [tcpSetAckSeq, hp, hw]

section Translation

variable {s : TcpStream} {tcp : Tcp} (hs : SentRow s) (hp : tcp.packet = true)
  (hw : tcp.writable = true)

include hs hp hw

/-- **The translation.** The acknowledgement loses the drift of the chunks that were reached. -/
theorem tcpStreamAck_ackSeq :
    (tcpStreamAck s tcp).ackSeq = tcp.ackSeq - drift s.sent (s.reached tcp.ackSeq) := by
  cases hsent : s.sent with
  | nil =>
    have h : tcpStreamAck s tcp = tcp := by
      unfold tcpStreamAck
      rw [hp, hsent]
      exact if_neg (by decide)
    have hdrift : drift [] (s.reached tcp.ackSeq) = 0 := by
      simp [TcpStream.reached, hsent, images, drift]
    rw [h, hdrift, UInt32.sub_zero]
  | cons chunk rest =>
    have hfirst : chunk.startSeq = 0 := by
      have h := hs.adjacent
      rw [hsent] at h
      exact h.1
    have hzero : s.sentOffsetSeq + chunk.startSeq = 0 := by rw [hs.offset, hfirst, UInt64.add_zero]
    have htotal := hs.total
    rw [hsent] at htotal
    rw [tcpStreamAck_cons hp hsent (by rw [hzero, remapSeq_zero]) rfl, hzero, hfirst,
      ackLoop_spec UInt64.zero_le (by rw [UInt64.toNat_zero]; omega), ackSeq_written hp hw, UInt64.zero_add,
      UInt64.toNat_zero, Nat.sub_zero]
    unfold drift TcpStream.reached
    rw [hsent]
    simp only [UInt64.toUInt32_add, UInt64.toUInt32_sub, UInt32.toUInt32_toUInt64,
      UInt64.toUInt32_ofNat']
    exact ack_arith _ _ _ _

end Translation

variable {s : TcpStream} {n : ℕ}

theorem toNat_ack (start : UInt32) (n : ℕ) :
    (start + UInt32.ofNat n).toNat = (start.toNat + n) % 2 ^ 32 := by
  rw [UInt32.toNat_add, UInt32.toNat_ofNat', Nat.add_mod_mod]

/-- Behind a wrap, all chunks are passed. -/
theorem reached_wrapped (hs : SentRow s) (h : (s.startSeq.toNat + n) % 2 ^ 32 < s.startSeq.toNat) :
    s.reached (s.startSeq + UInt32.ofNat n) = s.sent.length := by
  have htotal := hs.total
  have hlt := s.startSeq.toNat_lt
  have hack := toNat_ack s.startSeq n
  unfold TcpStream.reached
  rw [passed_all, images, length_map]
  rw [UInt64.toNat_sub, UInt32.toNat_toUInt64, UInt32.toNat_toUInt64, hack]
  omega

theorem reached_of_le (h : s.startSeq.toNat ≤ (s.startSeq.toNat + n) % 2 ^ 32) :
    s.reached (s.startSeq + UInt32.ofNat n) = passed (images s.sent) (n % 2 ^ 32) := by
  have hack := toNat_ack s.startSeq n
  unfold TcpStream.reached
  congr 1
  rw [UInt64.toNat_sub_of_le _ _ (UInt64.le_iff_toNat_le.2 (by
    rw [UInt32.toNat_toUInt64, UInt32.toNat_toUInt64, hack]
    exact h)), UInt32.toNat_toUInt64, UInt32.toNat_toUInt64, hack]
  omega

theorem reached_of_lt (h : s.startSeq.toNat + n < 2 ^ 32) :
    s.reached (s.startSeq + UInt32.ofNat n) = passed (images s.sent) n := by
  rw [reached_of_le (by omega), Nat.mod_eq_of_lt (by omega)]

variable {sent : List TcpStreamChunk} {k : ℕ}

theorem originalEnd_succ (a : UInt64) (hk : k < sent.length) :
    originalEnd a sent (k + 1) = sent[k].endSeq := by
  induction sent generalizing a k with
  | nil => cases hk
  | cons c sent ih =>
    rw [originalEnd_cons]
    rcases k with _ | k
    · rfl
    · exact ih c.endSeq (by simpa using hk)

theorem offset_images_lt (hpos : ∀ c ∈ sent, 0 < c.imageLen)
    (hk : k < sent.length) : offset (images sent) k < offset (images sent) (k + 1) := by
  have h := offset_succ (images sent) (by simpa [images] using hk)
  rw [h]
  have hc := hpos sent[k] (getElem_mem hk)
  simpa [images] using hc

/-- **Acknowledged chunks.** An acknowledgement of the end of chunk `k` becomes its original end
exactly if the sequence number of that end does not wrap, or wraps below `start_seq` and the edits of
the chunks behind `k` have added nothing. With 2^32 or more bytes up to the end of `k` it may also wrap
to a number from `start_seq` on: then the edits of the chunks from the position that is a multiple of
2^32 before must have added nothing. -/
theorem ack_chunk_end_iff {s : TcpStream} {tcp : Tcp} (hs : SentRow s) (hp : tcp.packet = true)
    (hw : tcp.writable = true) (hpos : ∀ c ∈ s.sent, 0 < c.imageLen) {k n : ℕ}
    (hk : k < s.sent.length) (hn : n = s.startSeq.toNat + offset (images s.sent) (k + 1))
    (hack : tcp.ackSeq = s.startSeq + UInt32.ofNat (offset (images s.sent) (k + 1))) :
    (tcpStreamAck s tcp).ackSeq = s.startSeq + s.sent[k].endSeq.toUInt32 ↔
      n < 2 ^ 32 ∨
      n % 2 ^ 32 < s.startSeq.toNat ∧ drift s.sent s.sent.length = drift s.sent (k + 1) ∨
      2 ^ 32 ≤ n ∧ s.startSeq.toNat ≤ n % 2 ^ 32 ∧
        drift s.sent (passed (images s.sent) (offset (images s.sent) (k + 1) % 2 ^ 32)) =
          drift s.sent (k + 1) := by
  have hiff : (tcpStreamAck s tcp).ackSeq = s.startSeq + s.sent[k].endSeq.toUInt32 ↔
      drift s.sent (s.reached tcp.ackSeq) = drift s.sent (k + 1) := by
    rw [tcpStreamAck_ackSeq hs hp hw, hack]
    unfold drift
    rw [originalEnd_succ 0 hk]
    exact ack_target_iff _ _ _ _
  rw [hiff, hack]
  by_cases hlt : n < 2 ^ 32
  · rw [reached_of_lt (hn ▸ hlt), passed_end _ (offset_images_lt hpos hk)]
    exact iff_of_true rfl (.inl hlt)
  · by_cases hwrap : n % 2 ^ 32 < s.startSeq.toNat
    · rw [reached_wrapped hs (hn ▸ hwrap), or_iff_right hlt,
        or_iff_left fun h => not_lt.2 h.2.1 hwrap, and_iff_right hwrap]
    · rw [reached_of_le (hn ▸ not_lt.1 hwrap), or_iff_right hlt, or_iff_right fun h => hwrap h.1,
        and_iff_right (not_lt.1 hlt), and_iff_right (not_lt.1 hwrap)]

def sentStream (startSeq : UInt32) (sent : List TcpStreamChunk) : TcpStream :=
  { (tcpStreamCreate ⟨1, fun _ => []⟩).2 with
    startSeq := startSeq, sent := sent, lastSentSeq := originalEnd 0 sent sent.length }

def ackPacket (ackSeq : UInt32) : Tcp :=
  { dataPacket 0 ⟨[], endChunk 0 true⟩ with ackSeq := ackSeq }

def grownChunks : List TcpStreamChunk := [⟨0, 10, 2⟩, ⟨10, 20, 5⟩]

theorem sentRow_grown (startSeq : UInt32) : SentRow (sentStream startSeq grownChunks) :=
  ⟨rfl, ⟨rfl, rfl, rfl⟩, by
    show (images grownChunks).sum + 2 ^ 32 ≤ 2 ^ 64
    decide⟩

theorem ack_chunk_end_grown :
    (tcpStreamAck (sentStream 100 grownChunks) (ackPacket 112)).ackSeq = 110 :=
  (ack_chunk_end_iff (sentRow_grown 100) rfl rfl (by decide) (k := 0) (by decide) rfl
    (by decide +kernel)).2 (.inl (by decide +kernel))

/-- **A wrapped acknowledgement** of the first chunk, whose end is past the wrap. All chunks count
as acknowledged, and the sender gets a number before the end of the chunk. -/
theorem ack_chunk_end_wrapped :
    SentRow (sentStream 4294967290 grownChunks) ∧ (∀ c ∈ grownChunks, 0 < c.imageLen) ∧
    (4294967290 : UInt32) + UInt32.ofNat (offset (images grownChunks) 1) = 6 ∧
    (tcpStreamAck (sentStream 4294967290 grownChunks) (ackPacket 6)).ackSeq = 4294967295 ∧
    (4294967290 : UInt32) + 10 = 4 :=
  ⟨sentRow_grown _, by decide, by decide +kernel, by decide +kernel, by decide⟩

/-! ## Monotone translation -/

def originals (sent : List TcpStreamChunk) : List ℕ :=
  sent.map fun c => (c.endSeq - c.startSeq).toNat

theorem originalEnd_toNat {a b : UInt64}
    (hadj : Adjacent TcpStreamChunk.startSeq TcpStreamChunk.endSeq a sent b)
    (hle : ∀ c ∈ sent, c.startSeq ≤ c.endSeq) (m : ℕ) :
    (originalEnd a sent m).toNat = a.toNat + offset (originals sent) m := by
  induction sent generalizing a m with
  | nil => simp [originalEnd, originals, offset]
  | cons c sent ih =>
    obtain ⟨hstart, hadj⟩ := hadj
    have hc : c.startSeq ≤ c.endSeq := hle c mem_cons_self
    have hc' : c.startSeq.toNat ≤ c.endSeq.toNat := UInt64.le_iff_toNat_le.1 hc
    rcases m with _ | m
    · simp
    · have hlen : (c.endSeq - c.startSeq).toNat = c.endSeq.toNat - c.startSeq.toNat :=
        UInt64.toNat_sub_of_le _ _ hc
      rw [originalEnd_cons, ih hadj (fun x hx => hle x (mem_cons_of_mem _ hx))]
      show _ = _ + offset ((c.endSeq - c.startSeq).toNat :: originals sent) (m + 1)
      rw [offset_cons, hlen, ← hstart]
      omega

theorem originalEnd_length {a b : UInt64}
    (hadj : Adjacent TcpStreamChunk.startSeq TcpStreamChunk.endSeq a sent b) :
    originalEnd a sent sent.length = b := by
  induction sent generalizing a with
  | nil => exact hadj
  | cons c sent ih =>
    rw [length_cons, originalEnd_cons]
    exact ih hadj.2

/-- What `tcp_stream_ack` makes of an acknowledgement of `n` bytes, relative to `start_seq`. -/
def TcpStream.translated (s : TcpStream) (tcp : Tcp) (n : ℕ) : ℕ :=
  ((tcpStreamAck s { tcp with ackSeq := s.startSeq + UInt32.ofNat n }).ackSeq - s.startSeq).toNat

theorem translated_eq (hs : SentRow s) (hp : tcp.packet = true)
    (hw : tcp.writable = true) (hle : ∀ c ∈ s.sent, c.startSeq ≤ c.endSeq)
    (hn : s.startSeq.toNat + n < 2 ^ 32) :
    s.translated tcp n = relocate (images s.sent) (originals s.sent) n % 2 ^ 32 := by
  have hpassed := (passed_spec (images s.sent) n).2.1
  have horiginal := originalEnd_toNat hs.adjacent hle (passed (images s.sent) n)
  have hack := tcpStreamAck_ackSeq hs
    (show ({ tcp with ackSeq := s.startSeq + UInt32.ofNat n } : Tcp).packet = true from hp) hw
  unfold TcpStream.translated
  rw [hack, reached_of_lt hn]
  unfold drift relocate
  generalize originalEnd 0 s.sent (passed (images s.sent) n) = e at horiginal ⊢
  generalize offset (images s.sent) (passed (images s.sent) n) = m at hpassed ⊢
  rw [UInt64.toNat_zero, Nat.zero_add] at horiginal
  rw [← horiginal]
  have hsplit : UInt32.ofNat n = UInt32.ofNat m + UInt32.ofNat (n - m) := by
    rw [← UInt32.ofNat_add, Nat.add_sub_cancel' hpassed]
  have hend : e.toUInt32 = UInt32.ofNat e.toNat := (UInt32.ofNat_uInt64ToNat e).symm
  have hsum : s.startSeq + UInt32.ofNat n - (UInt32.ofNat m - e.toUInt32) - s.startSeq =
      UInt32.ofNat (e.toNat + (n - m)) := by
    rw [UInt32.ofNat_add, hsplit, hend]
    exact translated_arith _ _ _ _
  rw [hsum, UInt32.toNat_ofNat']

theorem offset_chunk {i : ℕ} (hi : i < sent.length) :
    offset (images sent) (i + 1) = offset (images sent) i + sent[i].imageLen ∧
      offset (originals sent) (i + 1) =
        offset (originals sent) i + (sent[i].endSeq - sent[i].startSeq).toNat := by
  constructor
  · rw [offset_succ _ (by simpa [images] using hi)]
    simp [images]
  · rw [offset_succ _ (by simpa [originals] using hi)]
    simp [originals]

/-- **Monotone acknowledgements.** Where nothing wraps, the translation is monotone and acknowledges
no more than the chunk of the acknowledged byte exactly when no chunk has grown by more than one
byte. -/
theorem ack_monotone_iff {s : TcpStream} {tcp : Tcp} (hs : SentRow s) (hp : tcp.packet = true)
    (hw : tcp.writable = true) (hle : ∀ c ∈ s.sent, c.startSeq ≤ c.endSeq)
    (himages : s.startSeq.toNat + (images s.sent).sum < 2 ^ 32)
    (hlast : s.startSeq.toNat + s.lastSentSeq.toNat + 1 < 2 ^ 32) :
    ((∀ a b, a ≤ b → b ≤ (images s.sent).sum → s.translated tcp a ≤ s.translated tcp b) ∧
      ∀ i < s.sent.length, ∀ a, offset (images s.sent) i < a → a ≤ offset (images s.sent) (i + 1) →
        s.translated tcp a ≤ (originalEnd 0 s.sent (i + 1)).toNat) ↔
    ∀ c ∈ s.sent, c.imageLen ≤ (c.endSeq - c.startSeq).toNat + 1 := by
  have hend : ∀ m, (originalEnd 0 s.sent m).toNat = offset (originals s.sent) m := fun m => by
    rw [originalEnd_toNat hs.adjacent hle, UInt64.toNat_zero, Nat.zero_add]
  have hsum : (originals s.sent).sum = s.lastSentSeq.toNat := by
    have h := hend s.sent.length
    rw [originalEnd_length hs.adjacent] at h
    rw [h, ← offset_length]
    simp [originals]
  have htrans : ∀ a ≤ (images s.sent).sum, s.translated tcp a =
      relocate (images s.sent) (originals s.sent) a % 2 ^ 32 := fun a ha =>
    translated_eq hs hp hw hle (by omega)
  constructor
  · rintro ⟨-, hbound⟩ c hc
    obtain ⟨i, hi, rfl⟩ := getElem_of_mem hc
    obtain ⟨himage, horiginal⟩ := offset_chunk hi
    by_contra hgrow
    -- the byte after the original length of the chunk is over-acknowledged
    obtain ⟨a, ha⟩ : ∃ a, a = offset (images s.sent) i +
        ((s.sent[i].endSeq - s.sent[i].startSeq).toNat + 1) := ⟨_, rfl⟩
    have htotal := offset_le_sum (images s.sent) (i + 1)
    have hb := hbound i hi a (by omega) (by omega)
    have hle' := offset_le_sum (originals s.sent) (i + 1)
    rw [htrans a (by omega), relocate_inside (i := i) (by omega) (by omega), hend,
      Nat.mod_eq_of_lt (by omega)] at hb
    omega
  · intro hgrow
    have hgrow' : ∀ i < (images s.sent).length, offset (images s.sent) (i + 1) +
        offset (originals s.sent) i ≤ offset (originals s.sent) (i + 1) +
          offset (images s.sent) i + 1 := by
      intro i hi
      have hi' : i < s.sent.length := by simpa [images] using hi
      obtain ⟨himage, horiginal⟩ := offset_chunk hi'
      have hg := hgrow _ (getElem_mem hi')
      omega
    have hsmall : ∀ a ≤ (images s.sent).sum,
        relocate (images s.sent) (originals s.sent) a % 2 ^ 32 =
          relocate (images s.sent) (originals s.sent) a := by
      intro a ha
      have h := (relocate_le_next hgrow' ha).trans (offset_le_sum _ _)
      exact Nat.mod_eq_of_lt (by omega)
    constructor
    · intro a b hab hb
      rw [htrans a (hab.trans hb), htrans b hb, hsmall a (hab.trans hb), hsmall b hb]
      exact relocate_mono hgrow' hab hb
    · intro i hi a hlt ha
      have htotal : a ≤ (images s.sent).sum := ha.trans (offset_le_sum _ _)
      rw [htrans a htotal, hsmall a htotal, hend]
      exact relocate_le_end hgrow' hlt ha (by simpa [images] using hi)

def shrunkChunks : List TcpStreamChunk := [⟨0, 10, 1⟩, ⟨10, 20, -4⟩]

theorem ack_monotone_shrunk :
    (∀ a b, a ≤ b → b ≤ 17 → (sentStream 100 shrunkChunks).translated (ackPacket 0) a ≤
      (sentStream 100 shrunkChunks).translated (ackPacket 0) b) ∧
    ∀ i < 2, ∀ a, offset (images shrunkChunks) i < a → a ≤ offset (images shrunkChunks) (i + 1) →
      (sentStream 100 shrunkChunks).translated (ackPacket 0) a ≤
        (originalEnd 0 shrunkChunks (i + 1)).toNat :=
  (ack_monotone_iff (s := sentStream 100 shrunkChunks)
    ⟨rfl, ⟨rfl, rfl, rfl⟩, by decide +kernel⟩ rfl rfl (by decide +kernel) (by decide +kernel)
    (by decide +kernel)).2 (by decide +kernel)

/-- **A partial acknowledgement of a chunk that has grown.** Eleven of twelve bytes are
acknowledged, and the sender is told eleven of its ten; all twelve give less. -/
theorem ack_grown_not_monotone : SentRow (sentStream 100 grownChunks) ∧
    (sentStream 100 grownChunks).translated (ackPacket 0) 11 = 11 ∧
    (sentStream 100 grownChunks).translated (ackPacket 0) 12 = 10 ∧
    offset (images grownChunks) 1 = 12 ∧ (originalEnd 0 grownChunks 1).toNat = 10 :=
  ⟨sentRow_grown 100, by decide +kernel, by decide +kernel, by decide, by decide⟩

/-! ## Erased chunks -/

/-- **Everything is acknowledged.** The acknowledgement of all data becomes the original end of the
last chunk exactly if it wraps below `start_seq`, or does not wrap and the chunks behind the last one
that is not erased (or behind the first, if all are) have no original bytes. With 2^32 or more bytes it
may also wrap to a number from `start_seq` on: then the edits behind the position that is a multiple of
2^32 before must have added nothing. -/
theorem ack_all_iff {s : TcpStream} {tcp : Tcp} (hs : SentRow s) (hp : tcp.packet = true)
    (hw : tcp.writable = true) {n : ℕ} (hn : n = s.startSeq.toNat + (images s.sent).sum)
    (hack : tcp.ackSeq = s.startSeq + UInt32.ofNat (images s.sent).sum) :
    (tcpStreamAck s tcp).ackSeq = s.startSeq + s.lastSentSeq.toUInt32 ↔
      n % 2 ^ 32 < s.startSeq.toNat ∨
      n < 2 ^ 32 ∧ (∃ m, LastSolid (images s.sent) m ∧
        (originalEnd 0 s.sent m).toUInt32 = s.lastSentSeq.toUInt32) ∨
      2 ^ 32 ≤ n ∧ s.startSeq.toNat ≤ n % 2 ^ 32 ∧
        drift s.sent (passed (images s.sent) ((images s.sent).sum % 2 ^ 32)) =
          drift s.sent s.sent.length := by
  have hlength : (images s.sent).length = s.sent.length := by simp [images]
  have hsum : offset (images s.sent) s.sent.length = (images s.sent).sum := by
    rw [← offset_length, hlength]
  have hiff : (tcpStreamAck s tcp).ackSeq = s.startSeq + s.lastSentSeq.toUInt32 ↔
      drift s.sent (s.reached tcp.ackSeq) = drift s.sent s.sent.length := by
    rw [tcpStreamAck_ackSeq hs hp hw, hack]
    unfold drift
    rw [originalEnd_length hs.adjacent, hsum]
    exact ack_target_iff _ _ _ _
  rw [hiff, hack]
  by_cases hwrap : n % 2 ^ 32 < s.startSeq.toNat
  · rw [reached_wrapped hs (hn ▸ hwrap)]
    exact iff_of_true rfl (.inl hwrap)
  · by_cases hlt : n < 2 ^ 32
    · have hkept (m : ℕ) (hm : LastSolid (images s.sent) m) :
          drift s.sent (s.reached (s.startSeq + UInt32.ofNat (images s.sent).sum)) =
            drift s.sent s.sent.length ↔
          (originalEnd 0 s.sent m).toUInt32 = s.lastSentSeq.toUInt32 := by
        have hend : originalEnd 0 s.sent (min m s.sent.length) = originalEnd 0 s.sent m := by
          rw [originalEnd, originalEnd, ← take_eq_take_min]
        have hoffset : offset (images s.sent) (min m s.sent.length) = (images s.sent).sum := by
          rw [← hlength, offset, ← take_eq_take_min, ← sum_take_add_sum_drop (images s.sent) m,
            sum_eq_zero hm.1]
          rfl
        rw [reached_of_lt (hn ▸ hlt), passed_sum hm, hlength]
        unfold drift
        rw [hend, hoffset, originalEnd_length hs.adjacent, hsum]
        grind
      obtain ⟨m, hm⟩ := exists_lastSolid (images s.sent)
      rw [hkept m hm]
      refine ⟨fun h => .inr (.inl ⟨hlt, m, hm, h⟩), ?_⟩
      rintro (h | ⟨-, m', hm', h⟩ | ⟨h, -⟩)
      · exact absurd h hwrap
      · exact (hkept m hm).1 ((hkept m' hm').2 h)
      · omega
    · rw [reached_of_le (hn ▸ not_lt.1 hwrap), or_iff_right hwrap, or_iff_right fun h => hlt h.1,
        and_iff_right (not_lt.1 hlt), and_iff_right (not_lt.1 hwrap)]

theorem ack_all_grown : (tcpStreamAck (sentStream 100 grownChunks) (ackPacket 127)).ackSeq = 120 :=
  (ack_all_iff (sentRow_grown 100) rfl rfl rfl (by decide +kernel)).2
    (.inr (.inl ⟨by decide +kernel, 2, ⟨by decide, .inr ⟨15, by decide, by decide⟩⟩, by decide⟩))

def erasedChunks : List TcpStreamChunk := [⟨0, 2, 0⟩, ⟨2, 4, -2⟩]

/-- **An erased chunk at the end.** The peer has acknowledged all it was sent, but the erased chunk is
never acknowledged. -/
theorem ack_erased_lost : SentRow (sentStream 100 erasedChunks) ∧ images erasedChunks = [2, 0] ∧
    (sentStream 100 erasedChunks).lastSentSeq = 4 ∧
    (tcpStreamAck (sentStream 100 erasedChunks) (ackPacket 102)).ackSeq = 102 :=
  ⟨⟨rfl, ⟨rfl, rfl, rfl⟩, by decide +kernel⟩, by decide, by decide, by decide +kernel⟩

end Haka
