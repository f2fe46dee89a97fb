import Haka.Vbuffer.Buffer

/-!
# Iterators: positions, splits, insertion and marks

An iterator (`struct vbuffer_iterator`) is the address of a chunk and an offset from its start,
possibly larger than the chunk; `_vbuffer_iterator_fix` walks to the chunk the position falls in.
`_vbuffer_iterator_split` cuts that chunk there, and everything that edits a buffer starts from
the cut it returns.
-/

namespace Haka

/-- `struct vbuffer_iterator` with a chunk. -/
structure Iterator where
  chunk : ℕ
  offset : ℕ
  meter : ℕ
  registered : Bool
  deriving DecidableEq, Repr

/-- `struct vbuffer_sub`: a range given by its length or by its end (`use_size`). -/
inductive Sub where
  | sized (begin : Iterator) (length : ℕ)
  | between (begin «end» : Iterator)
  deriving DecidableEq, Repr

/-! ## Positions -/

/-- `_vbuffer_iterator_check`: the chunk is in the buffer and, for a registered iterator, the
offset is not past its end. -/
def _vbufferIteratorCheck (b : Vbuffer) (pos : Iterator) : Bool :=
  match b.all.find? fun c => c.id = pos.chunk with
  | none => false
  | some c => !(pos.registered && decide (c.size < pos.offset))

/-- `vbuffer_iterator_copy`: the copy is not registered. -/
def vbufferIteratorCopy (src : Iterator) : Iterator := { src with registered := false }

def vbufferIteratorUpdate (pos : Iterator) (chunk offset : ℕ) : Iterator :=
  { pos with chunk := chunk, offset := offset }

/-- The loop of `_vbuffer_iterator_fix`, from the chunk at the head of `after`. -/
def fixLoop (before : List Chunk) : List Chunk → ℕ → (List Chunk × List Chunk) × ℕ
  | [], offset => ((before, []), offset)
  | iter :: after, offset =>
    if offset > iter.size then fixLoop (before ++ [iter]) after (offset - iter.size)
    else ((before, iter :: after), offset)

/-- `_vbuffer_iterator_fix`: the chunk the position falls in, as a cut, and the offset in it. -/
def _vbufferIteratorFix (b : Vbuffer) (pos : Iterator) : Cut × ℕ :=
  let k := b.seek pos.chunk
  if pos.offset > k.chunk.size then
    let ((before, after), offset) := fixLoop k.before k.after pos.offset
    (⟨before, after, b.last⟩, offset)
  else (k, pos.offset)

/-- The loop of `vbuffer_iterator_advance`: the chunk reached, the offset in it and the length
that could not be advanced. -/
def advanceLoop (before : List Chunk) : List Chunk → ℕ → ℕ → (List Chunk × List Chunk) × ℕ × ℕ
  | [], _, clen => ((before, []), 0, clen)
  | iter :: after, offset, clen =>
    if offset > iter.size then advanceLoop (before ++ [iter]) after (offset - iter.size) clen
    else if iter.size - offset ≥ clen then ((before, iter :: after), offset + clen, 0)
    else advanceLoop (before ++ [iter]) after 0 (clen - (iter.size - offset))

/-- `vbuffer_iterator_advance`: the moved iterator and the length advanced, `none` for an iterator
the check refuses; `meter` is a 32-bit counter. -/
def vbufferIteratorAdvance (b : Vbuffer) (pos : Iterator) (len : ℕ) : Iterator × Option ℕ :=
  if _vbufferIteratorCheck b pos then
    let (k, offset) := _vbufferIteratorFix b pos
    let ((before, after), endoffset, clen) := advanceLoop k.before k.after offset len
    let moved := vbufferIteratorUpdate pos (Cut.mk before after b.last).chunk.id endoffset
    ({ moved with meter := (pos.meter + (len - clen)) % 2 ^ 32 }, some (len - clen))
  else (pos, none)

/-- `vbuffer_position`; `none` is `ALL`. The source leaves the meter of the iterator as it is. -/
def vbufferPosition (b : Vbuffer) (meter : ℕ) (offset : Option ℕ) : Iterator :=
  match offset with
  | none => ⟨b.last.id, 0, meter, false⟩
  | some offset =>
    let begin : Iterator := ⟨(Cut.mk [] b.body b.last).chunk.id, 0, meter, false⟩
    if offset > 0 then (vbufferIteratorAdvance b begin offset).1 else begin

/-! ## Splits -/

/-- The end of `_vbuffer_iterator_split`, at a chunk of the body: the chunks that stand for `iter`
before and from the position on. -/
def splitChunk (h : Heap) (iter : Chunk) (offset : ℕ) : Heap × List Chunk × List Chunk :=
  if offset = 0 then (h, [], [iter])
  else if offset = iter.size then (h, [iter], [])
  else ({ h with next := h.next + 1 }, [iter.left offset], [iter.right offset h.next])

/-- `_vbuffer_iterator_split`: the new buffer, cut at the chunk the source returns, or `none` when
the chunk to mark is read-only. -/
def _vbufferIteratorSplit (h : Heap) (b : Vbuffer) (pos : Iterator) (markModified : Bool) :
    Heap × Option Cut :=
  let (k, offset) := _vbufferIteratorFix b pos
  if markModified && !k.chunk.flags.writable then (h, none)
  else
    match k.after with
    | [] => (h, some ⟨k.before, [], k.last.markIf markModified⟩)
    | iter :: rest =>
      let (h, l, r) := splitChunk h (iter.markIf markModified) offset
      (h, some ⟨k.before ++ l, r ++ rest, k.last⟩)

def vbufferIteratorSplit (h : Heap) (b : Vbuffer) (pos : Iterator) : Heap × Vbuffer × Iterator × Bool :=
  if _vbufferIteratorCheck b pos then
    match _vbufferIteratorSplit h b pos false with
    | (h, none) => (h, b, pos, false)
    | (h, some k) => (h, k.toVbuffer, vbufferIteratorUpdate pos k.chunk.id 0, true)
  else (h, b, pos, false)

/-! ## Insertion -/

def vbufferSubCreateBetweenPosition (begin «end» : Iterator) : Sub :=
  .between (vbufferIteratorCopy begin) (vbufferIteratorCopy «end»)

/-- What `vbuffer_iterator_insert` leaves: the edited buffer, the source, the iterator, and on
success the sub of the inserted data. -/
structure InsertResult where
  heap : Heap
  buffer : Vbuffer
  source : Vbuffer
  position : Iterator
  sub : Option Sub

def vbufferIteratorInsert (h : Heap) (b : Vbuffer) (pos : Iterator) (buffer : Vbuffer) :
    InsertResult :=
  if _vbufferIteratorCheck b pos then
    if vbufferIsempty buffer then
      ⟨h, b, buffer, pos, some (vbufferSubCreateBetweenPosition pos pos)⟩
    else
      match _vbufferIteratorSplit h b pos true with
      | (h, none) => ⟨h, b, buffer, pos, none⟩
      | (h, some k) =>
        let begin := vbufferPosition buffer 0 (some 0)
        let pos := vbufferIteratorUpdate pos k.chunk.id 0
        ⟨h, k.insert buffer.body, { buffer with body := [] }, pos,
          some (vbufferSubCreateBetweenPosition begin pos)⟩
  else ⟨h, b, buffer, pos, none⟩

/-! ## Marks -/

/-- `vbuffer_chunk_insert_ctl`: a new control chunk before the designated one. -/
def vbufferChunkInsertCtl (h : Heap) (k : Cut) (data : Data) : Heap × Chunk × Vbuffer :=
  let chunk : Chunk :=
    { id := h.next, flags := ⟨false, false, k.chunk.flags.writable, true⟩, data := data,
      offset := 0, size := 0 }
  ({ h with next := h.next + 1 }, chunk, k.insert [chunk])

/-- `next->flags.modified |= chunk->flags.modified`. -/
def Chunk.orModified (next chunk : Chunk) : Chunk :=
  { next with flags := { next.flags with modified := next.flags.modified || chunk.flags.modified } }

/-- `vbuffer_chunk_remove_ctl` of the chunk `ctl` that stands before `after`. -/
def vbufferChunkRemoveCtl (before : List Chunk) (ctl : Chunk) (after : List Chunk) (last : Chunk) :
    Cut :=
  (Cut.mk before after last).mapChunk fun next => next.orModified ctl

def vbufferIteratorMark (h : Heap) (b : Vbuffer) (pos : Iterator) (readonly : Bool) :
    Heap × Vbuffer × Iterator × Bool :=
  if _vbufferIteratorCheck b pos then
    match _vbufferIteratorSplit h b pos false with
    | (h, none) => (h, b, pos, false)
    | (h, some k) =>
      let (h, chunk, b) := vbufferChunkInsertCtl { h with next := h.next + 1 } k (.mark h.next readonly)
      (h, b, vbufferIteratorUpdate pos chunk.id 0, true)
  else (h, b, pos, false)

def vbufferIteratorUnmark (b : Vbuffer) (pos : Iterator) : Vbuffer × Iterator × Bool :=
  if _vbufferIteratorCheck b pos then
    let k := b.seek pos.chunk
    match k.after with
    | [] => (b, pos, false)
    | ctl :: after =>
      if ctl.data.isMark then
        let k := vbufferChunkRemoveCtl k.before ctl after k.last
        (k.toVbuffer, vbufferIteratorUpdate pos k.chunk.id 0, true)
      else (b, pos, false)
  else (b, pos, false)

end Haka
