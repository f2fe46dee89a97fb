import Haka.Vbuffer.Sub

/-!
# Buffer streams

A stream (`struct vbuffer_stream`) is a buffer to which whole buffers are pushed at the end and
popped at the front. Each push ends with a push node, a control chunk that becomes the end chunk of
the stream; the old end chunk stays in the list, as the push node of the previous buffer or, in an
empty stream, as a left-over end node. A pop that meets read-only marks clones the data behind them
and keeps the original for the readers: the stream chunk then moves to `read_chunks`, and a later
pop erases what no mark holds any more.
-/

namespace Haka

variable {υ : Type}

/-- `struct vbuffer_stream_chunk`: its address, that of its push node's data, that of the push node
(`ctl_iter`), and the user data. -/
structure StreamChunk (υ : Type) where
  id : ℕ
  ctlData : ℕ
  ctlIter : ℕ
  userdata : Option υ

/-- `struct vbuffer_stream`, named by its address. -/
structure VbufferStream (υ : Type) where
  id : ℕ
  data : Vbuffer
  chunks : List (StreamChunk υ)
  readChunks : List (StreamChunk υ)

/-- `chunk->flags.eof = eof`. -/
def Chunk.setEof (eof : Bool) (c : Chunk) : Chunk := { c with flags := { c.flags with eof := eof } }

/-- `vbuffer_stream_init` of a stream at a new address. -/
def vbufferStreamInit (h : Heap) : Heap × VbufferStream υ :=
  let (h', data) := vbufferCreateEmpty { h with next := h.next + 1 }
  (h', ⟨h.next, { data with last := data.last.setEof false }, [], []⟩)

/-- The end chunk of the stream as a push leaves it in the list: an end chunk without data becomes a
left-over end node. -/
def oldEnd (h : Heap) (sid : ℕ) (e : Chunk) : Heap × Chunk :=
  if e.data = .null then ({ h with next := h.next + 1 }, { e with data := .push h.next sid none })
  else (h, e)

/-- The push node of a new stream chunk, which takes over the flags of the old end. -/
def pushNode (h : Heap) (e : Chunk) (writable : Bool) (data : Data) : Heap × Chunk :=
  ({ h with next := h.next + 1 },
    { id := h.next, flags := { e.flags with writable := writable, ctl := true }, data := data,
      offset := 0, size := 0 })

/-- `vbuffer_stream_push`: the stream, what is left of the buffer and, on success, the position of
the pushed data. -/
def vbufferStreamPush (h : Heap) (s : VbufferStream υ) (buffer : Vbuffer) (userdata : Option υ) :
    Heap × VbufferStream υ × Vbuffer × Option Iterator :=
  if s.data.last.flags.eof then (h, s, buffer, none)
  else
    let chunkId := h.next
    let ctlData := h.next + 1
    let (h₁, «end») := oldEnd { h with next := h.next + 2 } s.id s.data.last
    let (h₂, ctl) :=
      pushNode h₁ «end» (vbufferIswritable buffer) (.push ctlData s.id (some chunkId))
    let current := if vbufferIsempty buffer then ⟨ctl.id, 0, 0, false⟩
      else vbufferPosition buffer 0 (some 0)
    (h₂, { s with
        data := ⟨s.data.body ++ «end».setEof false :: buffer.body, ctl⟩,
        chunks := s.chunks ++ [⟨chunkId, ctlData, ctl.id, userdata⟩] },
      { buffer with body := [] }, some current)

def vbufferStreamFinish (s : VbufferStream υ) : VbufferStream υ :=
  { s with data := { s.data with last := s.data.last.setEof true } }

def vbufferStreamIsfinished (s : VbufferStream υ) : Bool := s.data.last.flags.eof

/-- `_vbuffer_stream_cleanup`: erases the front of the data up to the first mark, and a read chunk
for each push node on the way. -/
def _vbufferStreamCleanup : List Chunk → List (StreamChunk υ) → List Chunk × List (StreamChunk υ)
  | chunk :: rest, readChunk :: readChunks =>
    if chunk.data.isMark then (chunk :: rest, readChunk :: readChunks)
    else if chunk.data.isPush then _vbufferStreamCleanup rest readChunks
    else _vbufferStreamCleanup rest (readChunk :: readChunks)
  | body, readChunks => (body, readChunks)

/-- Where the scan of `vbuffer_stream_pop` stopped. It went over `moved ++ kept`, `kept` from
`start_of_keep` on when `keep` is set; `after` starts at the chunk it stopped at. -/
structure PopScan where
  found : Bool
  keep : Bool
  moved : List Chunk
  kept : List Chunk
  after : List Chunk
  last : Chunk

/-- `next->flags.modified |= modified`. -/
def Chunk.orFlag (modified : Bool) (c : Chunk) : Chunk :=
  { c with flags := { c.flags with modified := c.flags.modified || modified } }

/-- The scan of `vbuffer_stream_pop` for the push node `target`. It stops at a selection, at a
read-write mark and, where the source asserts, at the end. The first left-over end node is removed
(`left`); `modified` is what that adds to the next chunk. -/
def popScan (sid : ℕ) (target : Data) (left modified keep : Bool) (moved kept : List Chunk) :
    List Chunk → Chunk → PopScan
  | [], last => ⟨last.data = target, keep, moved, kept, [], last.orFlag modified⟩
  | chunk :: rest, last =>
    let iter := chunk.orFlag modified
    let next (keep : Bool) :=
      if keep then popScan sid target left false true moved (kept ++ [iter]) rest last
      else popScan sid target left false false (moved ++ [iter]) kept rest last
    if iter.data = target then ⟨true, keep, moved, kept, iter :: rest, last⟩
    else if iter.flags.ctl then
      match iter.data with
      | .push _ stream chunk =>
        if !left && decide (stream = sid) && chunk.isNone then
          popScan sid target true iter.flags.modified keep moved kept rest last
        else next keep
      | .select _ => ⟨false, keep, moved, kept, iter :: rest, last⟩
      | .mark _ readonly =>
        if readonly then next true else ⟨false, keep, moved, kept, iter :: rest, last⟩
      | _ => next keep
    else next keep

/-- `begin` of `vbuffer_stream_pop`, as the chunks before and from it on: after the push node of the
last read chunk, or the first chunk. -/
def popBegin (b : Vbuffer) (readChunks : List (StreamChunk υ)) : List Chunk × List Chunk :=
  match readChunks.getLast? with
  | none => ([], b.body)
  | some readLast =>
    let k := b.seek readLast.ctlIter
    (k.before ++ k.after.take 1, k.after.drop 1)

/-- `chunk->flags.writable = false` for the data chunks left to the readers. -/
def keptReadonly (c : Chunk) : Chunk := if c.flags.ctl then c else c.setWritable false

/-- `vbuffer_stream_pop`: the stream and, on success, the popped buffer and its user data. -/
def vbufferStreamPop (h : Heap) (s : VbufferStream υ) :
    Heap × VbufferStream υ × Option (Vbuffer × Option υ) :=
  match s.chunks with
  | [] => (h, s, none)
  | current :: chunks =>
    let (body, readChunks) := _vbufferStreamCleanup s.data.body s.readChunks
    let (before, rest) := popBegin ⟨body, s.data.last⟩ readChunks
    let r := popScan s.id (.push current.ctlData s.id (some current.id)) false false
      (!readChunks.isEmpty) [] [] rest s.data.last
    if r.found then
      let (h₁, buffer) := vbufferCreateEmpty h
      let out := buffer.last.setWritable (r.after.headD r.last).flags.writable
      if r.keep then
        -- the data from start_of_keep on stays, read-only, and is cloned
        let (h₂, clones) := cloneChunks .rw h₁ (r.kept.filter fun c => !c.flags.ctl)
        (h₂, { s with
            data := ⟨before ++ r.kept.map keptReadonly ++ r.after, r.last⟩,
            chunks := chunks,
            readChunks := readChunks ++ [{ current with userdata := none }] },
          some (⟨r.moved ++ clones, out⟩, current.userdata))
      else
        let data := match r.after with
          | ctl :: after => (vbufferChunkRemoveCtl before ctl after r.last).toVbuffer
          | [] => ⟨before, { r.last with data := .push current.ctlData s.id none }⟩
        (h₁, { s with data := data, chunks := chunks, readChunks := readChunks },
          some (⟨r.moved, out⟩, current.userdata))
    else
      (h, { s with
          data := ⟨before ++ r.moved ++ r.kept ++ r.after, r.last⟩, readChunks := readChunks }, none)

end Haka
