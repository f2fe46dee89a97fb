import Haka.Vbuffer.Mmap

/-!
# Writing into a buffer

The functions that write through a pointer into a chunk. `vbuffer_chunk_get_data` refuses a read-only
chunk with `NULL`. `vbuffer_iterator_mmap` adds an offset to what it returns, so that its result may
be an address that is neither `NULL` nor in a block; a store there is a fault of the program.

A store past the end of a block corrupts other memory; only what it does to the block is modelled.
-/

namespace Haka

open List

/-! ## Memory -/

/-- A block with the bytes from `offset` on overwritten. -/
def overwrite (block : List UInt8) (offset : ℕ) (bytes : List UInt8) : List UInt8 :=
  block.mapIdx fun i x => if offset ≤ i then bytes.getD (i - offset) x else x

/-- A store of `bytes` at `offset` in the block `addr`. -/
def Heap.store (h : Heap) (addr offset : ℕ) (bytes : List UInt8) : Heap :=
  { h with mem := Function.update h.mem addr (overwrite (h.mem addr) offset bytes) }

/-- A pointer: into the block of a data object, or a plain address, `NULL` for 0. -/
inductive Pointer where
  | block (addr offset : ℕ)
  | absolute (address : ℕ)
  deriving DecidableEq

namespace Pointer

/-- `!ptr`. -/
def isNull : Pointer → Bool
  | block _ _ => false
  | absolute address => address == 0

/-- `ptr + n`. -/
def add : Pointer → ℕ → Pointer
  | block addr offset, n => block addr (offset + n)
  | absolute address, n => absolute (address + n)

end Pointer

/-- How a call ends: with its result, or by a store to an address outside of every block. -/
inductive Outcome where
  | ret (result : Bool)
  | fault
  deriving DecidableEq

/-! ## Pointers into chunks -/

/-- `vbuffer_chunk_get_data`: the chunk, marked when it is written to, and the pointer. -/
def vbufferChunkGetData (chunk : Chunk) (write : Bool) : Chunk × Pointer :=
  if write && !chunk.flags.writable then (chunk, .absolute 0)
  else (chunk.markIf write, .block chunk.data.addr chunk.offset)

def Vbuffer.setChunk (b : Vbuffer) (chunk : Chunk) : Vbuffer :=
  { b with body := b.body.map fun c => if c.id = chunk.id then chunk else c }

/-- The loop of `vbuffer_iterator_mmap`: the first chunk with bytes, the offset in it, and the chunks
behind it. -/
def iteratorMmapLoop : List Chunk → ℕ → Option (Chunk × ℕ × List Chunk)
  | [], _ => none
  | iter :: rest, offset =>
    if !iter.flags.ctl && decide (0 < iter.size - offset) then some (iter, offset, rest)
    else iteratorMmapLoop rest 0

/-- `vbuffer_iterator_mmap`; `maxsize` is `none` for `ALL`. The buffer, the iterator, the size and the
pointer. -/
def vbufferIteratorMmap (b : Vbuffer) (pos : Iterator) (maxsize : Option ℕ) (write : Bool) :
    Vbuffer × Iterator × ℕ × Pointer :=
  if !_vbufferIteratorCheck b pos || maxsize == some 0 then (b, pos, 0, .absolute 0)
  else
    let (k, offset) := _vbufferIteratorFix b pos
    match iteratorMmapLoop k.after offset with
    | none => (b, pos, 0, .absolute 0)
    | some (iter, offset, rest) =>
      let len := iter.size - offset
      let (size, chunk, off) := match maxsize with
        | some maxsize =>
          if len > maxsize then (maxsize, iter.id, offset + maxsize)
          else (len, (rest.headD b.last).id, 0)
        | none => (len, (rest.headD b.last).id, 0)
      let (iter, ptr) := vbufferChunkGetData iter write
      (b.setChunk iter, vbufferIteratorUpdate pos chunk off, size, ptr.add offset)

def vbufferIteratorSetbyte (h : Heap) (b : Vbuffer) (pos : Iterator) (byte : UInt8) :
    Heap × Vbuffer × Iterator × Outcome :=
  if !_vbufferIteratorCheck b pos then (h, b, pos, .ret false)
  else
    let (b, pos, length, ptr) := vbufferIteratorMmap b pos (some 1) true
    if ptr.isNull || decide (length < 1) then (h, b, pos, .ret false)
    else
      match ptr with
      | .block addr offset => (h.store addr offset [byte], b, pos, .ret true)
      | .absolute _ => (h, b, pos, .fault)

def vbufferSetbyte (h : Heap) (b : Vbuffer) (data : Sub) (offset : ℕ) (byte : UInt8) :
    Heap × Vbuffer × Outcome :=
  if !_vbufferIteratorCheck b data.begin then (h, b, .ret false)
  else
    let iter := (vbufferIteratorAdvance b (vbufferIteratorCopy data.begin) offset).1
    let (h, b, _, outcome) := vbufferIteratorSetbyte h b iter byte
    (h, b, outcome)

/-! ## Ranges -/

def vbufferSubRead (h : Heap) (b : Vbuffer) (data : Sub) (size : ℕ) : List UInt8 :=
  if _vbufferSubCheck b data then ((vbufferMmaps b data).flatMap (pieceBytes h.mem)).take size
  else []

/-- The loop of `vbuffer_sub_write` over the pieces: the number of bytes written. It ends at a
read-only chunk, for which `vbuffer_mmap` returns `NULL`. -/
def subWriteLoop (h : Heap) (b : Vbuffer) : List (Chunk × ℕ × ℕ) → List UInt8 → Heap × Vbuffer × ℕ
  | [], _ => (h, b, 0)
  | (chunk, start, len) :: pieces, src =>
    if src.isEmpty then (h, b, 0)
    else
      match vbufferChunkGetData chunk true with
      | (_, .absolute _) => (h, b, 0)
      | (chunk, .block addr offset) =>
        let (h, b, ret) := subWriteLoop (h.store addr (offset + start) (src.take len))
          (b.setChunk chunk) pieces (src.drop len)
        (h, b, (src.take len).length + ret)

def vbufferSubWrite (h : Heap) (b : Vbuffer) (data : Sub) (src : List UInt8) : Heap × Vbuffer × ℕ :=
  if _vbufferSubCheck b data then subWriteLoop h b (vbufferMmaps b data) src else (h, b, 0)

/-- The loop of `_vbuffer_iterator_check_available` with an end; `none` when that is before the
beginning in one chunk. -/
def availableTo (endId endoffset : ℕ) : List Chunk → ℕ → Option ℕ
  | [], _ => some 0
  | iter :: rest, offset =>
    if iter.id = endId then if offset > endoffset then none else some (endoffset - offset)
    else (availableTo endId endoffset rest 0).map (iter.size - offset + ·)

/-- `vbuffer_sub_size`; `none` is `(size_t)-1`. -/
def vbufferSubSize (b : Vbuffer) (data : Sub) : Option ℕ :=
  if _vbufferSubCheck b data then
    match data with
    | .sized begin length =>
      let (k, offset) := _vbufferIteratorFix b begin
      some (min length (totalSize k.after - offset))
    | .between begin «end» =>
      let (k, offset) := _vbufferIteratorFix b begin
      let (e, endoffset) := _vbufferIteratorFix b «end»
      availableTo e.chunk.id endoffset k.after offset
  else none

def vbufferSubIsflat (b : Vbuffer) (data : Sub) : Bool :=
  if _vbufferSubCheck b data then
    let (k, offset) := _vbufferIteratorFix b data.begin
    match data with
    | .sized _ length => k.chunk.size ≤ offset + length
    | .between _ «end» =>
      let (e, endoffset) := _vbufferIteratorFix b «end»
      k.chunk.id = e.chunk.id || (endoffset = 0 && (k.after.tail.headD k.last).id = e.chunk.id)
  else false

/-! ## Numbers and bits -/

/-- `(num & ((1ULL << bits) - 1)) == num`, with `-num` for a negative number. The count of a shift is
taken modulo 64. -/
def numFits (num : ℤ) (bits : ℕ) : Bool := num.natAbs &&& (2 ^ (bits % 64) - 1) = num.natAbs

def numberBytes (length : ℕ) (bigendian : Bool) (num : ℤ) : List UInt8 :=
  let bytes := (range length).map fun i => UInt8.ofNat ((num / 256 ^ i) % 256).toNat
  if bigendian then bytes.reverse else bytes

/-- `vbuffer_setnumber`. A flat range is written through the pointer to its first piece. -/
def vbufferSetnumber (h : Heap) (b : Vbuffer) (data : Sub) (bigendian : Bool) (num : ℤ) :
    Heap × Vbuffer × Bool :=
  match vbufferSubSize b data with
  | none => (h, b, false)
  | some length =>
    if length > 8 || !numFits num (length * 8) then (h, b, false)
    else
      let bytes := numberBytes length bigendian num
      let supported := length ∈ [1, 2, 4, 8]
      if vbufferSubIsflat b data then
        match vbufferMmaps b data with
        | [] => (h, b, false)
        | (chunk, start, _) :: _ =>
          match vbufferChunkGetData chunk true with
          | (_, .absolute _) => (h, b, false)
          | (chunk, .block addr offset) =>
            if supported then (h.store addr (offset + start) bytes, b.setChunk chunk, true)
            else (h, b.setChunk chunk, false)
      else if supported then
        let (h, b, _) := vbufferSubWrite h b data bytes
        (h, b, true)
      else (h, b, false)

def shiftLeft32 (x : UInt32) (n : ℤ) : UInt32 := x <<< UInt32.ofNat (n % 32).toNat

def setbits (x : UInt8) (off size : ℤ) (v : UInt8) (bigendian : Bool) : UInt8 :=
  let off := if bigendian then 8 - off - size else off
  let mask := shiftLeft32 1 size - 1
  ((x.toUInt32 &&& ~~~shiftLeft32 mask off) ||| shiftLeft32 (v.toUInt32 &&& mask) off).toUInt8

/-- The loop of `vbuffer_setbits` over the bytes from `begin` on. `8 - off` is compared as an unsigned
number. -/
def setbitsLoop (bigendian : Bool) : List UInt8 → ℤ → ℕ → ℤ → List UInt8
  | [], _, _, _ => []
  | x :: temp, off, bits, num =>
    let size : ℕ := if 0 ≤ 8 - off ∧ 8 - off < bits then (8 - off).toNat else bits
    if bigendian then
      setbits x off size (UInt8.ofNat ((num / 2 ^ (bits - size)) % 256).toNat) true ::
        setbitsLoop bigendian temp 0 (bits - size) num
    else
      setbits x off size (UInt8.ofNat (num % 256).toNat) false ::
        setbitsLoop bigendian temp 0 (bits - size) (num / 2 ^ size)

/-- `vbuffer_setbits`. `return -1` is true. -/
def vbufferSetbits (h : Heap) (b : Vbuffer) (data : Sub) (offset bits : ℕ) (bigendian : Bool)
    (num : ℤ) : Heap × Vbuffer × Bool :=
  if bits > 64 || !numFits num bits then (h, b, false)
  else
    match vbufferSubSize b data with
    | none => (h, b, false)
    | some length =>
      let begin := offset / 8
      let «end» := (offset + bits + 7) / 8
      if begin ≥ length || «end» > length then (h, b, true)
      else if «end» > 8 then (h, b, false)
      else
        let temp := vbufferSubRead h b data «end»
        let temp := temp.take begin ++ setbitsLoop bigendian (temp.drop begin) offset bits num
        let (h, b, _) := vbufferSubWrite h b data temp
        (h, b, true)

/-! ## Calls -/

/-- A call that edits a buffer. -/
inductive EditCall where
  | insert (position : Iterator) (buffer : Vbuffer)
  | append (buffer : Vbuffer)
  | erase (data : Sub)
  | extract (data : Sub)
  | replace (data : Sub) (buffer : Vbuffer)
  | subWrite (data : Sub) (src : List UInt8)
  | iteratorSetbyte (position : Iterator) (byte : UInt8)
  | setbyte (data : Sub) (offset : ℕ) (byte : UInt8)
  | setnumber (data : Sub) (bigendian : Bool) (num : ℤ)
  | setbits (data : Sub) (offset bits : ℕ) (bigendian : Bool) (num : ℤ)

/-- The heap, the buffer and how the call ends. `vbuffer_sub_write` succeeds when it writes all. -/
def EditCall.apply (h : Heap) (b : Vbuffer) : EditCall → Heap × Vbuffer × Outcome
  | insert position buffer =>
    let r := vbufferIteratorInsert h b position buffer
    (r.heap, r.buffer, .ret r.sub.isSome)
  | append buffer => (h, (vbufferAppend b buffer).1, .ret true)
  | erase data =>
    let (h, b, ok) := vbufferErase h b data
    (h, b, .ret ok)
  | extract data =>
    let (h, b, extracted) := vbufferExtract h b data
    (h, b, .ret extracted.isSome)
  | replace data buffer =>
    let (h, b, new) := vbufferReplace h b data buffer
    (h, b, .ret new.isSome)
  | subWrite data src =>
    let (h, b, written) := vbufferSubWrite h b data src
    (h, b, .ret (written == src.length))
  | iteratorSetbyte position byte =>
    let (h, b, _, outcome) := vbufferIteratorSetbyte h b position byte
    (h, b, outcome)
  | setbyte data offset byte => vbufferSetbyte h b data offset byte
  | setnumber data bigendian num =>
    let (h, b, ok) := vbufferSetnumber h b data bigendian num
    (h, b, .ret ok)
  | setbits data offset bits bigendian num =>
    let (h, b, ok) := vbufferSetbits h b data offset bits bigendian num
    (h, b, .ret ok)

/-! ## What a store changes -/

def Heap.byteAt (h : Heap) (p : ℕ × ℕ) : Option UInt8 := (h.mem p.1)[p.2]?

section Store

variable {h : Heap} {addr offset : ℕ} {bytes : List UInt8} {p : ℕ × ℕ}

@[simp] theorem length_overwrite (block : List UInt8) (offset : ℕ) (bytes : List UInt8) :
    (overwrite block offset bytes).length = block.length := by
  simp [overwrite]

theorem mem_store_self : (h.store addr offset bytes).mem addr = overwrite (h.mem addr) offset bytes :=
  Function.update_self ..

theorem mem_store_of_ne {a : ℕ} (ha : a ≠ addr) : (h.store addr offset bytes).mem a = h.mem a :=
  Function.update_of_ne ha ..

theorem byteAt_store_of_not (hp : ¬(p.1 = addr ∧ offset ≤ p.2 ∧ p.2 < offset + bytes.length)) :
    (h.store addr offset bytes).byteAt p = h.byteAt p := by
  unfold Heap.byteAt
  by_cases ha : p.1 = addr
  · subst ha
    rw [mem_store_self, overwrite, getElem?_mapIdx]
    cases hx : (h.mem p.1)[p.2]? with
    | none => rfl
    | some x =>
      rw [Option.map_some]
      split
      · rw [getD_eq_getElem?_getD, getElem?_eq_none (by omega), Option.getD_none]
      · rfl
  · rw [mem_store_of_ne ha]

theorem byteAt_store (hp : p.1 = addr) (ho : offset ≤ p.2) (hin : (h.byteAt p).isSome)
    {x : UInt8} (hx : bytes[p.2 - offset]? = some x) :
    (h.store addr offset bytes).byteAt p = some x := by
  unfold Heap.byteAt at hin ⊢
  subst hp
  obtain ⟨y, hy⟩ := Option.isSome_iff_exists.1 hin
  rw [mem_store_self, overwrite, getElem?_mapIdx, hy, Option.map_some, if_pos ho,
    getD_eq_getElem?_getD, hx, Option.getD_some]

end Store

/-! ## Buffers up to the marks -/

/-- A chunk without its `modified` flag. -/
def Chunk.unmark (c : Chunk) : Chunk := { c with flags := { c.flags with modified := false } }

/-- Buffers that differ in the `modified` flags of their chunks only. -/
structure Vbuffer.Remarked (b b' : Vbuffer) : Prop where
  body : b'.body.map Chunk.unmark = b.body.map Chunk.unmark
  last : b'.last = b.last

section Remarked

variable {h : Heap} {b b' : Vbuffer} {c : Chunk}

theorem Vbuffer.Remarked.refl (b : Vbuffer) : b.Remarked b := ⟨rfl, rfl⟩

theorem Vbuffer.Remarked.mem (hr : b.Remarked b') {x : Chunk} (hx : x ∈ b'.body) :
    ∃ y ∈ b.body, y.unmark = x.unmark := by
  have hm : x.unmark ∈ b.body.map Chunk.unmark := by
    rw [← hr.body]
    exact mem_map_of_mem hx
  exact mem_map.1 hm

theorem Vbuffer.Remarked.setChunk (hr : b.Remarked b') (hb : (idsOf b.body).Nodup) {d : Chunk}
    (hd : d ∈ b.body) (hc : c.unmark = d.unmark) : b.Remarked (b'.setChunk c) := by
  refine ⟨?_, hr.last⟩
  rw [← hr.body, Vbuffer.setChunk, map_map]
  refine map_congr_left fun x hx => ?_
  rw [Function.comp_apply]
  split
  case isTrue hid =>
    obtain ⟨y, hy, hyx⟩ := hr.mem hx
    have hyd : y.id = d.id := by
      have h1 : y.unmark.id = x.unmark.id := congrArg Chunk.id hyx
      have h2 : c.unmark.id = d.unmark.id := congrArg Chunk.id hc
      exact h1.trans (hid.trans h2)
    rw [inj_on_of_nodup_map hb hy hd hyd] at hyx
    exact hc.trans hyx
  case isFalse => rfl

theorem unmark_markIf (k : Bool) (c : Chunk) : (c.markIf k).unmark = c.unmark := by
  cases k <;> rfl

end Remarked

/-! ## What a write leaves -/

/-- What a write does: the marks of the buffer and bytes of the memory change, the memory only if a
chunk of the buffer is marked. -/
structure Wrote (h : Heap) (b : Vbuffer) (h' : Heap) (b' : Vbuffer) : Prop where
  remarked : b.Remarked b'
  next : h'.next = h.next
  lengths : ∀ a, (h'.mem a).length = (h.mem a).length
  marked : vbufferIsmodified b' = false → vbufferIsmodified b = false ∧ h'.mem = h.mem

def writeTarget (b : Vbuffer) (pos : Iterator) : Option (Chunk × ℕ) :=
  let (k, offset) := _vbufferIteratorFix b pos
  (iteratorMmapLoop k.after offset).map fun (chunk, offset, _) => (chunk, offset)

section Wrote

variable {h h' : Heap} {b b' : Vbuffer} {c : Chunk}

theorem getData_readonly (hc : c.flags.writable = false) :
    vbufferChunkGetData c true = (c, .absolute 0) := by
  simp [vbufferChunkGetData, hc]

theorem getData_writable (hc : c.flags.writable = true) :
    vbufferChunkGetData c true = (c.markIf true, .block c.data.addr c.offset) := by
  simp [vbufferChunkGetData, hc]

theorem ismodified_of_mem (hc : c ∈ b.all) (hm : c.flags.modified = true) :
    vbufferIsmodified b = true :=
  any_eq_true.2 ⟨c, hc, hm⟩

theorem length_store (h : Heap) (addr offset : ℕ) (bytes : List UInt8) (a : ℕ) :
    ((h.store addr offset bytes).mem a).length = (h.mem a).length := by
  by_cases ha : a = addr
  · rw [ha, mem_store_self, length_overwrite]
  · rw [mem_store_of_ne ha]

theorem Wrote.refl (h : Heap) (b : Vbuffer) : Wrote h b h b :=
  ⟨.refl b, rfl, fun _ => rfl, fun hm => ⟨hm, rfl⟩⟩

theorem ismodified_setChunk (hr : b.Remarked b') (hc : c ∈ b.body) :
    vbufferIsmodified (b'.setChunk (c.markIf true)) = true := by
  -- the chunk with the address of `c` is there
  have hm : c.unmark ∈ b'.body.map Chunk.unmark := by
    rw [hr.body]
    exact mem_map_of_mem hc
  obtain ⟨x, hx, hxc⟩ := mem_map.1 hm
  have hid : x.unmark.id = c.unmark.id := congrArg Chunk.id hxc
  refine ismodified_of_mem (c := c.markIf true) (mem_append_left _ ?_) rfl
  exact mem_map.2 ⟨x, hx, if_pos hid⟩

theorem Wrote.mark (hb : b.WF h) (hc : c ∈ b.body) (hnext : h'.next = h.next)
    (hlen : ∀ a, (h'.mem a).length = (h.mem a).length) :
    Wrote h b h' (b.setChunk (c.markIf true)) := by
  refine ⟨(Vbuffer.Remarked.refl b).setChunk hb.nodup_body hc (unmark_markIf true c), hnext, hlen, ?_⟩
  rw [ismodified_setChunk (.refl b) hc]
  exact fun hm => absurd hm (by simp)

theorem setChunk_self (hb : b.WF h) (hc : c ∈ b.body) : b.setChunk c = b := by
  have hmap : (b.body.map fun x => if x.id = c.id then c else x) = b.body.map id := by
    refine map_congr_left fun x hx => ?_
    split
    case isTrue hid => exact (inj_on_of_nodup_map hb.nodup_body hx hc hid).symm
    case isFalse => rfl
  rw [Vbuffer.setChunk, hmap, map_id]

theorem subWriteLoop_wrote (hb : (idsOf b.body).Nodup) {pieces : List (Chunk × ℕ × ℕ)}
    (hpieces : ∀ piece ∈ pieces, piece.1 ∈ b.body) (hr : b.Remarked b') (src : List UInt8) :
    b.Remarked (subWriteLoop h b' pieces src).2.1 ∧
      (subWriteLoop h b' pieces src).1.next = h.next ∧
      (∀ a, ((subWriteLoop h b' pieces src).1.mem a).length = (h.mem a).length) ∧
      (vbufferIsmodified (subWriteLoop h b' pieces src).2.1 = false →
        vbufferIsmodified b' = false ∧ (subWriteLoop h b' pieces src).1.mem = h.mem) := by
  induction pieces generalizing h b' src with
  | nil => exact ⟨hr, rfl, fun _ => rfl, fun hm => ⟨hm, rfl⟩⟩
  | cons piece pieces ih =>
    obtain ⟨c, start, len⟩ := piece
    obtain ⟨hc, hpieces⟩ := forall_mem_cons.1 hpieces
    rw [subWriteLoop]
    split
    · exact ⟨hr, rfl, fun _ => rfl, fun hm => ⟨hm, rfl⟩⟩
    cases hw : c.flags.writable with
    | false =>
      rw [getData_readonly hw]
      exact ⟨hr, rfl, fun _ => rfl, fun hm => ⟨hm, rfl⟩⟩
    | true =>
      rw [getData_writable hw]
      have hset := hr.setChunk hb hc (unmark_markIf true c)
      obtain ⟨hr', hnext, hlen, hmark⟩ :=
        ih hpieces hset (src.drop len)
      refine ⟨hr', hnext, fun a => (hlen a).trans (length_store h _ _ _ a), fun hm => ?_⟩
      rw [ismodified_setChunk hr hc] at hmark
      exact absurd (hmark hm).1 (by simp)

theorem subWrite_wrote (hb : b.WF h) (data : Sub) (src : List UInt8) :
    Wrote h b (vbufferSubWrite h b data src).1 (vbufferSubWrite h b data src).2.1 := by
  unfold vbufferSubWrite
  split
  · obtain ⟨hr, hnext, hlen, hmark⟩ := subWriteLoop_wrote hb.nodup_body
      (fun piece hp => (subIterate_mem hb data piece (mem_filter.1 hp).1).1) (.refl b) src
    exact ⟨hr, hnext, hlen, hmark⟩
  · exact .refl h b

theorem iteratorMmapLoop_mem {l rest : List Chunk} {offset off : ℕ}
    (hloop : iteratorMmapLoop l offset = some (c, off, rest)) : c ∈ l ∧ off < c.size := by
  induction l generalizing offset with
  | nil => cases hloop
  | cons iter l ih =>
    rw [iteratorMmapLoop] at hloop
    split at hloop
    case isTrue hfound =>
      obtain ⟨rfl, rfl, -⟩ : iter = c ∧ offset = off ∧ l = rest := by simpa using hloop
      have hlt : 0 < iter.size - offset := by simpa using (Bool.and_eq_true_iff.1 hfound).2
      exact ⟨mem_cons_self, by omega⟩
    case isFalse =>
      obtain ⟨hmem, hlt⟩ := ih hloop
      exact ⟨mem_cons_of_mem iter hmem, hlt⟩

theorem iteratorMmap_write (hb : b.WF h) (pos : Iterator) (maxsize : Option ℕ) :
    (vbufferIteratorMmap b pos maxsize true = (b, pos, 0, .absolute 0) ∧
      (_vbufferIteratorCheck b pos = false ∨ maxsize = some 0 ∨ writeTarget b pos = none)) ∨
    ∃ c ∈ b.body, ∃ off < c.size, writeTarget b pos = some (c, off) ∧
      (vbufferIteratorMmap b pos maxsize true).1 =
        (if c.flags.writable then b.setChunk (c.markIf true) else b) ∧
      (vbufferIteratorMmap b pos maxsize true).2.2.2 =
        if c.flags.writable then .block c.data.addr (c.offset + off) else .absolute off := by
  unfold vbufferIteratorMmap writeTarget
  split
  next hrefused =>
    have hrefused : _vbufferIteratorCheck b pos = false ∨ maxsize = some 0 := by
      simpa using hrefused
    exact .inl ⟨rfl, hrefused.imp_right .inl⟩
  dsimp only
  cases hloop : iteratorMmapLoop (_vbufferIteratorFix b pos).1.after (_vbufferIteratorFix b pos).2 with
  | none => exact .inl ⟨rfl, .inr (.inr rfl)⟩
  | some found =>
    obtain ⟨c, off, rest⟩ := found
    obtain ⟨hmem, hoff⟩ := iteratorMmapLoop_mem hloop
    have hc : c ∈ b.body := fix_after_mem hmem
    refine .inr ⟨c, hc, off, hoff, rfl, ?_⟩
    cases hw : c.flags.writable with
    | true =>
      simp only [getData_writable hw]
      exact ⟨rfl, rfl⟩
    | false =>
      simp only [getData_readonly hw, setChunk_self hb hc]
      exact ⟨rfl, by simp [Pointer.add]⟩

theorem iteratorSetbyte_wrote (hb : b.WF h) (pos : Iterator) (byte : UInt8) :
    Wrote h b (vbufferIteratorSetbyte h b pos byte).1 (vbufferIteratorSetbyte h b pos byte).2.1 := by
  unfold vbufferIteratorSetbyte
  split
  · exact .refl h b
  rcases iteratorMmap_write hb pos (some 1) with ⟨heq, -⟩ | ⟨c, hc, off, -, -, hbuf, hptr⟩
  · rw [heq]
    exact .refl h b
  dsimp only
  rw [hbuf, hptr]
  cases hw : c.flags.writable with
  | true =>
    simp only [if_true]
    split
    · exact .mark hb hc rfl fun _ => rfl
    · exact .mark hb hc rfl (length_store h _ _ _)
  | false =>
    simp only [Bool.false_eq_true, if_false]
    split <;> exact .refl h b

theorem setbyte_wrote (hb : b.WF h) (data : Sub) (offset : ℕ) (byte : UInt8) :
    Wrote h b (vbufferSetbyte h b data offset byte).1 (vbufferSetbyte h b data offset byte).2.1 := by
  unfold vbufferSetbyte
  split
  · exact .refl h b
  · exact iteratorSetbyte_wrote hb _ byte

theorem setbits_wrote (hb : b.WF h) (data : Sub) (offset bits : ℕ) (bigendian : Bool) (num : ℤ) :
    Wrote h b (vbufferSetbits h b data offset bits bigendian num).1
      (vbufferSetbits h b data offset bits bigendian num).2.1 := by
  unfold vbufferSetbits
  split
  · exact .refl h b
  split
  · exact .refl h b
  dsimp only
  split_ifs
  · exact .refl h b
  · exact .refl h b
  · exact subWrite_wrote hb data _

theorem setnumber_wrote (hb : b.WF h) (data : Sub) (bigendian : Bool) (num : ℤ) :
    Wrote h b (vbufferSetnumber h b data bigendian num).1
      (vbufferSetnumber h b data bigendian num).2.1 := by
  unfold vbufferSetnumber
  split
  · exact .refl h b
  dsimp only
  split
  · exact .refl h b
  split
  · cases hmaps : vbufferMmaps b data with
    | nil => exact .refl h b
    | cons piece rest =>
    obtain ⟨c, start, n⟩ := piece
    have hc : c ∈ b.body := by
      have hmem : (c, start, n) ∈ vbufferMmaps b data := by simp [hmaps]
      exact (subIterate_mem hb data _ (mem_filter.1 hmem).1).1
    cases hw : c.flags.writable with
    | false =>
      simp only [getData_readonly hw]
      exact .refl h b
    | true =>
      simp only [getData_writable hw]
      split
      · exact .mark hb hc rfl (length_store h _ _ _)
      · exact .mark hb hc rfl fun _ => rfl
  · split
    · exact subWrite_wrote hb data _
    · exact .refl h b

end Wrote

end Haka
