import Haka.Vbuffer.Read
import Haka.Vbuffer.Readonly

/-!
# Reading a number

`vbuffer_asnumber` reads the bytes of a range as a number. A range that `vbuffer_sub_isflat` calls
flat is read through the pointer to its first piece, any other is copied first. The test for a flat
range is right for a sub between two iterators. For a sized sub it is the wrong way round: it holds
when the range reaches the end of the chunk it begins in, so that a range over several chunks is read
from the memory behind the first one (`asnumber_iff`).
-/

namespace Haka

open List

/-! ## Numbers -/

def ofBytes : List UInt8 → ℕ
  | [] => 0
  | x :: l => x.toNat + 256 * ofBytes l

/-- The end of `vbuffer_asnumber`; `bigHost` is `HAKA_BIGENDIAN`. Two bytes in the order of the host
are read as an `int16`, but `bswap_16` returns an unsigned number. `bswap_32` returns an `unsigned
int`, which makes both branches of the conditional unsigned. -/
def numberOf (bigHost bigendian : Bool) (bytes : List UInt8) : ℤ :=
  let n : ℤ := ofBytes (if bigendian then bytes.reverse else bytes)
  let swapped := bigendian != bigHost
  if bytes.length = 1 ∨ bytes.length = 4 ∨ (swapped = true ∧ bytes.length = 2) then n
  else n.bmod (2 ^ (8 * bytes.length))

/-- How `vbuffer_asnumber` ends: with a number, with an error, which returns 0, or by a read outside
of the block of the first piece. -/
inductive Number where
  | ret (value : ℤ)
  | error (message : String)
  | fault
  deriving DecidableEq

/-- `error("asnumber: unsupported size %zu", length)`. -/
def unsupportedSize (length : ℕ) : Number := .error s!"asnumber: unsupported size {length}"

def blockPlaces (addr offset length : ℕ) : List (ℕ × ℕ) :=
  (range length).map fun i => (addr, offset + i)

/-- The places `vbuffer_sub_read` copies from. -/
def subReadPlaces (b : Vbuffer) (data : Sub) (size : ℕ) : List (ℕ × ℕ) :=
  ((vbufferMmaps b data).flatMap fun piece =>
    blockPlaces piece.1.data.addr (piece.1.offset + piece.2.1) piece.2.2).take size

/-- The places `vbuffer_asnumber` reads: from the first piece on, whatever its length, if the range
is flat; `none` without a piece. -/
def asnumberPlaces (b : Vbuffer) (data : Sub) (length : ℕ) : Option (List (ℕ × ℕ)) :=
  if vbufferSubIsflat b data then
    (vbufferMmaps b data).head?.map fun piece =>
      blockPlaces piece.1.data.addr (piece.1.offset + piece.2.1) length
  else some (subReadPlaces b data length)

def vbufferAsnumber (bigHost : Bool) (h : Heap) (b : Vbuffer) (data : Sub) (bigendian : Bool) :
    Number :=
  match vbufferSubSize b data with
  | none => .ret 0
  | some length =>
    if length > 8 then unsupportedSize length
    else
      match asnumberPlaces b data length with
      | none => .ret 0
      | some places =>
        if length ∈ [1, 2, 4, 8] then
          match places.mapM h.byteAt with
          | none => .fault
          | some bytes => .ret (numberOf bigHost bigendian bytes)
        else unsupportedSize length

/-! ## Places -/

section Places

variable {h : Heap} {b : Vbuffer} {data : Sub} {lo hi : ℕ}

@[simp] theorem length_blockPlaces (addr offset length : ℕ) :
    (blockPlaces addr offset length).length = length := by
  simp [blockPlaces]

theorem places_eq (c : Chunk) : c.places = blockPlaces c.data.addr c.offset c.size := rfl

theorem slice_blockPlaces {addr offset length start n : ℕ} (hle : start + n ≤ length) :
    ((blockPlaces addr offset length).drop start).take n = blockPlaces addr (offset + start) n := by
  apply ext_getElem
  · simp only [length_take, length_drop, length_blockPlaces]
    omega
  · rintro i _ _
    simp [blockPlaces, Nat.add_assoc]

theorem pieceOf_places {piece : Chunk × ℕ × ℕ} (hle : piece.2.1 + piece.2.2 ≤ piece.1.size) :
    pieceOf Chunk.places piece =
      blockPlaces piece.1.data.addr (piece.1.offset + piece.2.1) piece.2.2 := by
  rw [pieceOf, places_eq, slice_blockPlaces hle]

def Vbuffer.places (b : Vbuffer) : List (ℕ × ℕ) := b.body.flatMap Chunk.places

theorem byteAt_places {c : Chunk} (hc : c.Valid h.mem) :
    c.places.map h.byteAt = (c.bytes h.mem).map some := by
  have hlen := hc.inBlock
  unfold Chunk.bytes at hlen ⊢
  rw [length_take, length_drop] at hlen
  apply ext_getElem
  · simp [Chunk.places]
    omega
  · rintro i h1 h2
    simp [Chunk.places, Heap.byteAt]

theorem byteAt_content (hb : b.WF h) : b.places.map h.byteAt = (b.content h).map some := by
  unfold Vbuffer.places Vbuffer.content bytesOf
  rw [map_flatMap, map_flatMap]
  exact flatMap_congr fun c hc => byteAt_places (hb.valid_body c hc)

theorem mapM_of_map {α β : Type*} {f : α → Option β} {l : List α} {l' : List β}
    (hl : l.map f = l'.map some) : l.mapM f = some l' := by
  induction l generalizing l' with
  | nil => simp_all
  | cons x l ih =>
    obtain _ | ⟨y, l'⟩ := l'
    · simp at hl
    · obtain ⟨hx, hl⟩ := cons.inj hl
      simp [hx, ih hl]

theorem mapM_slice (hb : b.WF h) (lo n : ℕ) :
    ((b.places.drop lo).take n).mapM h.byteAt = some (((b.content h).drop lo).take n) := by
  apply mapM_of_map
  rw [map_take, map_drop, byteAt_content hb, ← map_drop, ← map_take]

theorem length_chunk_places (c : Chunk) : c.places.length = c.size := by
  simp [Chunk.places]

theorem subReadPlaces_eq (hb : b.WF h) (hc : b.Covers data lo hi) (ho : b.Ordered data) :
    subReadPlaces b data (hi - lo) = (b.places.drop lo).take (hi - lo) := by
  have hslice := mmaps_slice (fun c _ => length_chunk_places c) hb hc ho
  rw [subReadPlaces, Vbuffer.places, ← flatMap_congr fun piece hp =>
    pieceOf_places (mmaps_mem hb data piece hp).2, hslice, take_take, Nat.min_self]

end Places

/-! ## Flat ranges -/

/-- The bytes from `lo` to `hi` lie in one chunk. -/
def Vbuffer.InOneChunk (b : Vbuffer) (lo hi : ℕ) : Prop :=
  ∃ P c Q, b.body = P ++ c :: Q ∧ totalSize P ≤ lo ∧ hi ≤ totalSize P + c.size

section Flat

variable {h : Heap} {b : Vbuffer} {data : Sub} {lo hi : ℕ}

theorem Vbuffer.InOneChunk.le {P Q : List Chunk} {c : Chunk} (hone : b.InOneChunk lo hi)
    (hbody : b.body = P ++ c :: Q) (hlo : totalSize P ≤ lo)
    (hc : lo < totalSize P + c.size) : hi ≤ totalSize P + c.size := by
  obtain ⟨P', c', Q', hbody', hlo', hhi'⟩ := hone
  rcases prefix_cases (hbody.symm.trans hbody') with ⟨M, rfl, hM⟩ | ⟨d, M, rfl, hM⟩
  · cases M with
    | nil =>
      obtain ⟨rfl, -⟩ := cons.inj hM
      simpa using hhi'
    | cons d M =>
      obtain ⟨rfl, -⟩ := cons.inj hM
      rw [totalSize_append, totalSize_cons] at hlo'
      omega
  · obtain ⟨rfl, -⟩ := cons.inj hM
    rw [totalSize_append, totalSize_cons] at hlo
    omega

theorem inOneChunk_of_not_flat {begin : Iterator} {length : ℕ} (hb : b.WF h)
    (hc : b.Covers (.sized begin length) lo hi)
    (hflat : vbufferSubIsflat b (.sized begin length) = false) : b.InOneChunk lo hi := by
  rw [vbufferSubIsflat, hc.check, if_pos rfl] at hflat
  cases hc with
  | sized hbegin =>
  obtain ⟨P, Q, off, hfix, hat⟩ := fix_spec hb hbegin
  simp only [Sub.begin, hfix, decide_eq_false_iff_not, not_le] at hflat
  cases Q with
  | nil =>
    have hsize : (Cut.mk P [] b.last).chunk.size = 0 := hb.last_size
    omega
  | cons c Q =>
    have hsize : off + length < c.size := hflat
    refine ⟨P, c, Q, hat.body, ?_, ?_⟩
    · rw [← hat.offset]
      omega
    · rw [← hat.offset]
      omega

theorem inOneChunk_of_flat {begin «end» : Iterator} (hb : b.WF h)
    (hc : b.Covers (.between begin «end») lo hi) (hlt : lo < hi)
    (hflat : vbufferSubIsflat b (.between begin «end») = true) : b.InOneChunk lo hi := by
  have ho := ordered_of_lt hb hc hlt
  rw [vbufferSubIsflat, hc.check, if_pos rfl] at hflat
  cases hc with
  | between hbegin hend _ hle =>
  obtain ⟨P, M, T, off, endoffset, hat⟩ := between_spec hb hbegin hend hle ho
  simp only [Sub.begin, hat.atBegin, hat.atEnd, Bool.or_eq_true, Bool.and_eq_true,
    decide_eq_true_eq] at hflat
  have hlo := hat.lo
  have hhi := hat.hi
  cases M with
  | nil =>
    -- both iterators fall in one chunk
    rw [totalSize_nil] at hhi
    rcases hat.endChunk with ⟨rfl, rfl⟩ | ⟨c, R, rfl, -, he⟩
    · omega
    · exact ⟨P, c, R, hat.body, by omega, by omega⟩
  | cons c M =>
    have hid := hat.endId
    rw [idsOf_cons, mem_cons, not_or] at hid
    obtain hsame | ⟨rfl, hnext⟩ := hflat
    · exact absurd hsame.symm hid.1
    cases M with
    | nil =>
      rw [totalSize_cons, totalSize_nil] at hhi
      exact ⟨P, c, T, hat.body, by omega, by omega⟩
    | cons d M => exact absurd (mem_cons.2 (.inl hnext.symm)) hid.2

theorem places_slice {P Q : List Chunk} {c : Chunk} {start n : ℕ} (hbody : b.body = P ++ c :: Q)
    (hle : start + n ≤ c.size) :
    (b.places.drop (totalSize P + start)).take n = blockPlaces c.data.addr (c.offset + start) n := by
  have hP : (P.flatMap Chunk.places).length = totalSize P :=
    length_flatMap_chunks fun c _ => length_chunk_places c
  have hc := length_chunk_places c
  rw [Vbuffer.places, hbody, flatMap_append, flatMap_cons, ← drop_drop, ← hP,
    drop_left, drop_append_of_le_length (by omega),
    take_append_of_le_length (by rw [length_drop]; omega), places_eq,
    slice_blockPlaces hle]

theorem mmaps_first_byte {c : Chunk} {start n : ℕ} {rest : List (Chunk × ℕ × ℕ)} (hb : b.WF h)
    (hc : b.Covers data lo hi) (hmaps : vbufferMmaps b data = (c, start, n) :: rest) :
    ∃ P Q, b.body = P ++ c :: Q ∧ totalSize P + start = lo ∧ start < c.size := by
  obtain ⟨P, Q, hafter, hstart, hsize⟩ := mmaps_first hb hmaps
  obtain ⟨hbegin, hlo⟩ := hc.begin
  obtain ⟨P0, Q0, off, hfix, hat⟩ := fix_spec hb hbegin
  rw [hfix] at hafter hstart
  obtain rfl : Q0 = P ++ c :: Q := hafter
  obtain rfl : totalSize P + start = off := hstart
  refine ⟨P0 ++ P, Q, by rw [hat.body, append_assoc], ?_, hsize⟩
  rw [← hlo, ← hat.offset, totalSize_append, Nat.add_assoc]

theorem asnumberPlaces_of_flat (hb : b.WF h) (hc : b.Covers data lo hi) (hlt : lo < hi)
    (hone : b.InOneChunk lo hi) :
    (vbufferMmaps b data).head?.map (fun piece =>
      blockPlaces piece.1.data.addr (piece.1.offset + piece.2.1) (hi - lo)) =
      some ((b.places.drop lo).take (hi - lo)) := by
  have ho := ordered_of_lt hb hc hlt
  have hslice := mmaps_slice (fun c _ => length_chunk_places c) hb hc ho
  cases hmaps : vbufferMmaps b data with
  | nil =>
    have hlen := congrArg length hslice
    rw [hmaps, flatMap_nil, length_nil, length_take, length_drop,
      length_flatMap_chunks fun c _ => length_chunk_places c] at hlen
    have := hc.le
    omega
  | cons piece rest =>
    obtain ⟨P, Q, hbody, hat, hsize⟩ := mmaps_first_byte hb hc hmaps
    have hhi := hone.le hbody (by omega) (by omega)
    rw [← hat, places_slice hbody (by omega)]
    rfl

end Flat

/-! ## The result -/

/-- A number is read as if its bytes were in one chunk: a flat range lies in one chunk, the number
is that of its bytes, and no other byte is read. -/
structure ReadsNumber (bigHost : Bool) (h : Heap) (b : Vbuffer) (data : Sub) (lo hi : ℕ)
    (bigendian : Bool) : Prop where
  flat : vbufferSubIsflat b data = true → b.InOneChunk lo hi
  value : vbufferAsnumber bigHost h b data bigendian =
    .ret (numberOf bigHost bigendian (((b.content h).drop lo).take (hi - lo)))
  inside : asnumberPlaces b data (hi - lo) = some ((b.places.drop lo).take (hi - lo))

section Result

variable {h : Heap} {b : Vbuffer} {data : Sub} {lo hi : ℕ}

section

variable (bigHost bigendian : Bool)
  (hb : b.WF h)
  (hc : b.Covers data lo hi)
  (hn : hi - lo ∈ [1, 2, 4, 8])

include bigHost bigendian hb hc hn

theorem asnumber_of_places
    (hplaces : asnumberPlaces b data (hi - lo) = some ((b.places.drop lo).take (hi - lo))) :
    vbufferAsnumber bigHost h b data bigendian =
      .ret (numberOf bigHost bigendian (((b.content h).drop lo).take (hi - lo))) := by
  have hpos : 0 < hi - lo ∧ hi - lo ≤ 8 := by
    simp only [mem_cons, not_mem_nil, or_false] at hn
    omega
  have hsize := subSize_spec hb hc (ordered_of_lt hb hc (by omega))
  unfold vbufferAsnumber
  simp only [hsize, hplaces, mapM_slice hb, if_neg (not_lt.2 hpos.2), if_pos hn]

theorem readsNumber_of_flat
    (hflat : vbufferSubIsflat b data = true → b.InOneChunk lo hi) :
    ReadsNumber bigHost h b data lo hi bigendian := by
  have hlt : lo < hi := by
    simp only [mem_cons, not_mem_nil, or_false] at hn
    omega
  have hplaces : asnumberPlaces b data (hi - lo) = some ((b.places.drop lo).take (hi - lo)) := by
    unfold asnumberPlaces
    split
    case isTrue h => exact asnumberPlaces_of_flat hb hc hlt (hflat h)
    case isFalse => rw [subReadPlaces_eq hb hc (ordered_of_lt hb hc hlt)]
  exact ⟨hflat, asnumber_of_places bigHost bigendian hb hc hn hplaces, hplaces⟩

end

/-- **Numbers and fragmentation.** A number of 1, 2, 4 or 8 bytes is read as if its bytes were in
one chunk if the range is between iterators, and for a sized range exactly if it lies in one chunk.
-/
theorem asnumber_iff (bigHost bigendian : Bool) (hb : b.WF h) (hc : b.Covers data lo hi)
    (hn : hi - lo ∈ [1, 2, 4, 8]) :
    ReadsNumber bigHost h b data lo hi bigendian ↔
      (∃ begin «end», data = .between begin «end») ∨ b.InOneChunk lo hi := by
  constructor
  · rintro hr
    cases data with
    | between begin «end» => exact .inl ⟨begin, «end», rfl⟩
    | sized begin length =>
      right
      cases hflat : vbufferSubIsflat b (.sized begin length) with
      | true => exact hr.flat hflat
      | false => exact inOneChunk_of_not_flat hb hc hflat
  · rintro (⟨begin, «end», rfl⟩ | hone)
    · have hlt : lo < hi := by
        simp only [mem_cons, not_mem_nil, or_false] at hn
        omega
      exact readsNumber_of_flat bigHost bigendian hb hc hn (inOneChunk_of_flat hb hc hlt)
    · exact readsNumber_of_flat bigHost bigendian hb hc hn fun _ => hone

end Result

/-- The block `01 09` split after its first byte, with `02` inserted there. -/
def insertedHeap : Heap := ⟨6, fun a => if a = 1 then [1, 9] else if a = 2 then [2] else []⟩

def insertedBuffer : Vbuffer :=
  ⟨[⟨3, ⟨false, true, true, false⟩, .basic 1, 0, 1⟩, ⟨4, ⟨false, false, true, false⟩, .basic 2, 0, 1⟩,
    ⟨5, ⟨false, false, true, false⟩, .basic 1, 1, 1⟩], endChunk 0 true⟩

theorem insertedBuffer_wf : insertedBuffer.WF insertedHeap := by
  decide

/-- The first two bytes between two iterators, the number 258 in network order. -/
theorem asnumber_iff_inserted :
    ReadsNumber false insertedHeap insertedBuffer (vbufferSubCreate insertedBuffer 0 (some 2)) 0 2
      true :=
  (asnumber_iff false true insertedBuffer_wf (subCreate_covers 0 2 insertedBuffer_wf)
    (by decide)).2 (.inl ⟨_, _, rfl⟩)

/-- The first two bytes as a sized sub: the range is called flat though it lies in two chunks, and the
number is read from `01 09`. -/
theorem asnumber_behind_chunk : vbufferSubIsflat insertedBuffer (.sized ⟨3, 0, 0, false⟩ 2) = true ∧
      vbufferAsnumber false insertedHeap insertedBuffer (.sized ⟨3, 0, 0, false⟩ 2) true =
        .ret 265 ∧
      numberOf false true ((insertedBuffer.content insertedHeap).take 2) = 258 ∧
      ¬ReadsNumber false insertedHeap insertedBuffer (.sized ⟨3, 0, 0, false⟩ 2) 0 2 true := by
  have hvalue : vbufferAsnumber false insertedHeap insertedBuffer (.sized ⟨3, 0, 0, false⟩ 2) true =
      .ret 265 := by decide
  refine ⟨by decide, hvalue, by decide, fun hr => ?_⟩
  have := hvalue.symm.trans hr.value
  revert this
  decide

end Haka
