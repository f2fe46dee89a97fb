import Haka.Vbuffer.Iterator

/-!
# Subs: extraction, selection, erasure and replacement

`_vbuffer_extract` cuts a range out of a buffer: both ends are split, the chunks between them are
moved to a new buffer, and control chunks of the range are moved in front of it. `vbuffer_extract`,
`vbuffer_erase` and `vbuffer_replace` are built on it; `vbuffer_select` leaves a control node in
place of the range, through which `vbuffer_restore` puts data back.

`vbuffer_sub_clone` is modelled without `CLONE_COPY`, which flattens its source.
-/

namespace Haka

namespace Sub

/-- `data->begin`. -/
def begin : Sub → Iterator
  | sized begin _ => begin
  | between begin _ => begin

end Sub

def _vbufferSubCheck (b : Vbuffer) : Sub → Bool
  | .sized begin _ => _vbufferIteratorCheck b begin
  | .between begin «end» => _vbufferIteratorCheck b begin && _vbufferIteratorCheck b «end»

/-- `vbuffer_sub_create`; a length `none` is `ALL`. -/
def vbufferSubCreate (b : Vbuffer) (offset : ℕ) (length : Option ℕ) : Sub :=
  let begin := vbufferPosition b 0 (some offset)
  match length with
  | none => .between begin (vbufferPosition b 0 none)
  | some length => .between begin (vbufferIteratorAdvance b (vbufferIteratorCopy begin) length).1

/-- `vbuffer_sub_create_from_position`; the length is stored in 32 bits. -/
def vbufferSubCreateFromPosition (position : Iterator) (length : ℕ) : Sub :=
  .sized (vbufferIteratorCopy position) (length % 2 ^ 32)

/-! ## Extraction -/

/-- The chunks the loop of `_vbuffer_extract` has passed. After the chunk that precedes the range
the list of the source buffer is `moved ++ skipped ++ range ++ rest`: `ctl_insert_iter` is the end
of `moved`, `begin` the head of `range ++ rest` and `iter` the head of `rest`. -/
structure Passed where
  moved : List Chunk
  skipped : List Chunk
  range : List Chunk
  deriving DecidableEq

/-- The body of the loop for a chunk inside the range: control chunks are skipped as long as
`iter == begin`, moved to `ctl_insert_iter` afterwards. -/
def Passed.pass (insertCtl : Bool) (s : Passed) (iter : Chunk) : Passed :=
  if iter.flags.ctl && !insertCtl then
    if s.range.isEmpty then { s with skipped := s.skipped ++ [iter] }
    else { s with moved := s.moved ++ [iter] }
  else { s with range := s.range ++ [iter] }

/-- The loop of `_vbuffer_extract`. `size` is the length left when the sub is sized; otherwise the
loop stops at the chunk `endId`. The chunks from `end` on are returned, and false when the chunk to
split is read-only. -/
def extractLoop (h : Heap) (size : Option ℕ) (endId : ℕ) (markModified insertCtl : Bool)
    (s : Passed) : List Chunk → Heap × Passed × List Chunk × Bool
  | [] => (h, s, [], true)
  | iter :: rest =>
    match size with
    | some size =>
      if size > iter.size then
        extractLoop h (some (size - iter.size)) endId markModified insertCtl
          (s.pass insertCtl iter) rest
      else if markModified && !iter.flags.writable then (h, s, iter :: rest, false)
      else
        let (h, l, r) := splitChunk h (iter.markIf markModified) size
        (h, { s with range := s.range ++ l }, r ++ rest, true)
    | none =>
      if iter.id = endId then (h, s, iter :: rest, true)
      else extractLoop h none endId markModified insertCtl (s.pass insertCtl iter) rest

/-- What `_vbuffer_extract` leaves: the source buffer and, on success, the extracted buffer and the
source buffer cut at the chunk returned. -/
structure ExtractResult where
  heap : Heap
  source : Vbuffer
  extracted : Option (Vbuffer × Cut)

/-- The end of `_vbuffer_extract`: the chunks of the range go to `buffer`, and a selection leaves
its control node in their place. -/
def extractDone (h : Heap) (before : List Chunk) (s : Passed) (rest : List Chunk) (last : Chunk)
    (buffer : Vbuffer) (insertCtl : Bool) : ExtractResult :=
  let left : Cut := ⟨before ++ s.moved ++ s.skipped, rest, last⟩
  if insertCtl then
    let (h, ctl, source) :=
      vbufferChunkInsertCtl { h with next := h.next + 1 } left (.select h.next)
    ⟨h, source, some ({ buffer with body := s.range }, ⟨left.before, ctl :: left.after, left.last⟩)⟩
  else ⟨h, left.toVbuffer, some ({ buffer with body := s.range }, left)⟩

/-- `_vbuffer_extract` from the split of the beginning on. `endId` is the chunk of an end iterator;
a selection between two iterators takes the chunks up to it without a loop. -/
def extractFrom (h : Heap) (b : Vbuffer) (begin : Iterator) (size : Option ℕ) (endId : ℕ)
    (markModified insertCtl : Bool) : ExtractResult :=
  match _vbufferIteratorSplit h b (vbufferIteratorCopy begin) markModified with
  | (h, none) => ⟨h, b, none⟩
  | (h, some k) =>
    let (h, buffer) := _vbufferInit h k.chunk.flags.writable
    if size.isSome || !insertCtl then
      match extractLoop h size endId markModified insertCtl ⟨[], [], []⟩ k.after with
      | (h, s, rest, true) => extractDone h k.before s rest k.last buffer insertCtl
      | (h, s, rest, false) =>
        ⟨h, ⟨k.before ++ s.moved ++ s.skipped ++ s.range ++ rest, k.last⟩, none⟩
    else
      extractDone h k.before ⟨[], [], k.after.takeWhile fun c => c.id ≠ endId⟩
        (k.after.dropWhile fun c => c.id ≠ endId) k.last buffer insertCtl

/-- `_vbuffer_extract`. A sub between two iterators whose end is before its beginning is outside the
model: the source follows the list past its end, here the range ends with the buffer. -/
def _vbufferExtract (h : Heap) (b : Vbuffer) (data : Sub) (markModified insertCtl : Bool) :
    ExtractResult :=
  if _vbufferSubCheck b data then
    match data with
    | .sized begin length => extractFrom h b begin (some length) 0 markModified insertCtl
    | .between begin «end» =>
      match _vbufferIteratorSplit h b (vbufferIteratorCopy «end») markModified with
      | (h, none) => ⟨h, b, none⟩
      | (h, some k) => extractFrom h k.toVbuffer begin none k.chunk.id markModified insertCtl
  else ⟨h, b, none⟩

/-- `vbuffer_extract`: the source, and the extracted buffer. -/
def vbufferExtract (h : Heap) (b : Vbuffer) (data : Sub) : Heap × Vbuffer × Option Vbuffer :=
  let r := _vbufferExtract h b data true false
  (r.heap, r.source, r.extracted.map Prod.fst)

/-- `vbuffer_erase`: the source, and whether it succeeded. -/
def vbufferErase (h : Heap) (b : Vbuffer) (data : Sub) : Heap × Vbuffer × Bool :=
  let r := _vbufferExtract h b data true false
  (r.heap, r.source, r.extracted.isSome)

/-- `vbuffer_replace`: the source and, on success, the updated sub. The length of a sized sub is set
to the `length` of a sub made by `vbuffer_sub_create`, which shares its storage with the end
iterator: it is the low half of the address of the end chunk. -/
def vbufferReplace (h : Heap) (b : Vbuffer) (data : Sub) (buffer : Vbuffer) :
    Heap × Vbuffer × Option Sub :=
  let r := _vbufferExtract h b data true false
  match r.extracted with
  | none => (r.heap, r.source, none)
  | some (_, k) =>
    let begin := vbufferPosition buffer 0 (some 0)
    let new := match data with
      | .sized b _ => Sub.sized (vbufferIteratorUpdate b begin.chunk begin.offset)
          (buffer.last.id % 2 ^ 32)
      | .between b e => Sub.between (vbufferIteratorUpdate b begin.chunk begin.offset)
          (vbufferIteratorUpdate e k.chunk.id 0)
    (r.heap, k.markModified.insert buffer.body, some new)

/-! ## Iteration and clones -/

/-- The chunks `_vbuffer_sub_iterate` returns for a sized sub, each with its start and length. -/
def subIterateSized : List Chunk → ℕ → ℕ → List (Chunk × ℕ × ℕ)
  | [], _, _ => []
  | chunk :: rest, offset, len =>
    if len = 0 then []
    else if len ≥ chunk.size - offset then
      (chunk, offset, chunk.size - offset) :: subIterateSized rest 0 (len - (chunk.size - offset))
    else [(chunk, offset, len)]

/-- The chunks `_vbuffer_sub_iterate` returns up to the end iterator; an end before the beginning in
the same chunk is an error. -/
def subIterateBetween (endId endoffset : ℕ) : List Chunk → ℕ → List (Chunk × ℕ × ℕ)
  | [], _ => []
  | chunk :: rest, offset =>
    if chunk.id = endId then
      if endoffset < offset then [] else [(chunk, offset, endoffset - offset)]
    else (chunk, offset, chunk.size - offset) :: subIterateBetween endId endoffset rest 0

/-- `_vbuffer_sub_iterate`, called until it returns `NULL`. -/
def _vbufferSubIterate (b : Vbuffer) : Sub → List (Chunk × ℕ × ℕ)
  | .sized begin length =>
    let (k, offset) := _vbufferIteratorFix b begin
    subIterateSized k.after offset length
  | .between begin «end» =>
    let (k, offset) := _vbufferIteratorFix b begin
    let (e, endoffset) := _vbufferIteratorFix b «end»
    subIterateBetween e.chunk.id endoffset k.after offset

/-- `clone_mode`, without `CLONE_COPY`. -/
inductive CloneMode where
  | roClone
  | roOrig
  | rw
  deriving DecidableEq

/-- `vbuffer_chunk_clone` of each chunk, with the flags `mode` asks for. -/
def cloneChunks (mode : CloneMode) : Heap → List Chunk → Heap × List Chunk
  | h, [] => (h, [])
  | h, chunk :: rest =>
    let clone := { chunk with id := h.next }
    let (h, clones) := cloneChunks mode { h with next := h.next + 1 } rest
    (h, (if mode = .roClone then clone.setWritable false else clone) :: clones)

/-- `vbuffer_sub_clone`: the source, whose chunks become read-only under `CLONE_RO_ORIG`, and the
clone, of whole chunks without control chunks. -/
def vbufferSubClone (h : Heap) (b : Vbuffer) (data : Sub) (mode : CloneMode) :
    Heap × Vbuffer × Option Vbuffer :=
  if _vbufferSubCheck b data then
    let chunks := ((_vbufferSubIterate b data).map Prod.fst).filter fun c => !c.flags.ctl
    let (h, buffer) := _vbufferInit h true
    let (h, clones) := cloneChunks mode h chunks
    let writable := match mode with
      | .roClone => false
      | _ => (clones.getLast?.map fun c => c.flags.writable).getD true
    let orig := if mode = .roOrig then
        b.body.map fun c => if c.id ∈ idsOf chunks then c.setWritable false else c
      else b.body
    (h, { b with body := orig }, some ⟨clones, buffer.last.setWritable writable⟩)
  else (h, b, none)

/-! ## Selection -/

/-- `vbuffer_select`: the source and, on success, the selected buffer and the reference. -/
def vbufferSelect (h : Heap) (b : Vbuffer) (data : Sub) :
    Heap × Vbuffer × Option (Vbuffer × Iterator) :=
  let r := _vbufferExtract h b data false true
  (r.heap, r.source, r.extracted.map fun x => (x.1, ⟨x.2.chunk.id, 0, 0, false⟩))

/-- The chunks `vbuffer_restore` inserts, and what is left of the buffer they come from. -/
def restoredChunks (h : Heap) (data : Vbuffer) (clone : Bool) : Heap × List Chunk × Vbuffer :=
  if clone then
    let sub := vbufferSubCreateBetweenPosition (vbufferPosition data 0 (some 0))
      (vbufferPosition data 0 none)
    match vbufferSubClone h data sub .roOrig with
    | (h, data, some buf) => (h, buf.body, data)
    | (h, data, none) => (h, [], data)
  else (h, data.body, { data with body := [] })

/-- `vbuffer_restore`: the buffer, what is left of the restored data, and whether the position was a
select node. -/
def vbufferRestore (h : Heap) (b : Vbuffer) (position : Iterator) (data : Option Vbuffer)
    (clone : Bool) : Heap × Vbuffer × Option Vbuffer × Bool :=
  if _vbufferIteratorCheck b position then
    let k := b.seek position.chunk
    match k.after with
    | [] => (h, b, data, false)
    | ctl :: after =>
      if ctl.data.isSelect then
        match data with
        | none => (h, (vbufferChunkRemoveCtl k.before ctl after k.last).toVbuffer, none, true)
        | some data =>
          let (h, inserted, data) := restoredChunks h data clone
          (h, (vbufferChunkRemoveCtl (k.before ++ inserted) ctl after k.last).toVbuffer, some data,
            true)
      else (h, b, data, false)
  else (h, b, data, false)

end Haka
