import Haka.Stream.Fifo
import Haka.Vbuffer.Fields

/-!
# Sub streams

A sub stream (`struct vbuffer_sub_stream`) is a buffer stream for parts of another buffer, the outer
one. A push selects a sub of the outer buffer and gives what was selected to the stream, with the
select node as user data. A pop takes every buffer the stream has to give and restores it at its
node.

The outer buffer, which the source reaches through the chunks of the sub, is a parameter here.
-/

namespace Haka

/-- `struct vbuffer_sub_stream_chunk`. -/
structure VbufferSubStreamChunk where
  select : Iterator

/-- `struct vbuffer_sub_stream`. -/
abbrev VbufferSubStream := VbufferStream VbufferSubStreamChunk

/-- `vbuffer_sub_stream_push`: the stream, the outer buffer and the position of the pushed data. A
refused buffer is lost, and its node left in the outer buffer. -/
def vbufferSubStreamPush (h : Heap) (stream : VbufferSubStream) (b : Vbuffer) (buffer : Sub) :
    Heap × VbufferSubStream × Vbuffer × Option Iterator :=
  match vbufferSelect h b buffer with
  | (h, b, none) => (h, stream, b, none)
  | (h, b, some (extract, select)) =>
    let (h, stream, _, current) :=
      vbufferStreamPush h stream extract (some ⟨vbufferIteratorRegister b select⟩)
    (h, stream, b, current)

def vbufferLast (b : Vbuffer) : Iterator :=
  match b.body.getLast? with
  | none => ⟨b.last.id, 0, 0, false⟩
  | some c => ⟨c.id, c.size, 0, false⟩

/-- The sub of `vbuffer_sub_stream_pop` after one more buffer, from the first buffer that is not
empty to the end of the last one. -/
def poppedSub (sub : Option (Iterator × Iterator)) (buffer : Vbuffer) :
    Option (Iterator × Iterator) :=
  if vbufferIsempty buffer then sub
  else some (sub.elim (vbufferPosition buffer 0 (some 0)) Prod.fst, vbufferLast buffer)

/-- `vbuffer_restore` at a select node in the outer buffer, or in the data of the stream when a
later push took it along. -/
def subStreamRestore (h : Heap) (stream : VbufferSubStream) (b : Vbuffer) (select : Iterator)
    (buffer : Vbuffer) : Heap × VbufferSubStream × Vbuffer :=
  if select.chunk ∈ idsOf stream.data.all then
    let r := vbufferRestore h stream.data select (some buffer) false
    (r.1, { stream with data := r.2.1 }, b)
  else
    let r := vbufferRestore h b select (some buffer) false
    (r.1, stream, r.2.1)

/-- The loop of `vbuffer_sub_stream_pop`. Each round takes a chunk from the stream, so that there
are no more rounds than chunks. -/
def subStreamPopLoop : ℕ → Heap → VbufferSubStream → Vbuffer → Option (Iterator × Iterator) →
    Heap × VbufferSubStream × Vbuffer × Option (Iterator × Iterator)
  | 0, h, stream, b, sub => (h, stream, b, sub)
  | n + 1, h, stream, b, sub =>
    match vbufferStreamPop h stream with
    | (h, stream, some (buffer, some chunk)) =>
      let (h, stream, b) := subStreamRestore h stream b chunk.select buffer
      subStreamPopLoop n h stream b (poppedSub sub buffer)
    -- every chunk of a sub stream has its select node as user data
    | (h, stream, _) => (h, stream, b, sub)

/-- `vbuffer_sub_stream_pop`: the stream, the outer buffer and the sub that holds what came back, if
it is not empty. -/
def vbufferSubStreamPop (h : Heap) (stream : VbufferSubStream) (b : Vbuffer) :
    Heap × VbufferSubStream × Vbuffer × Option Sub :=
  let r := subStreamPopLoop stream.chunks.length h stream b none
  (r.1, r.2.1, r.2.2.1, r.2.2.2.map fun p => .between p.1 p.2)

theorem subStreamPush_refused {h : Heap} {stream : VbufferSubStream} {b : Vbuffer} {data : Sub}
    {lo hi : ℕ} (hb : b.WF h) (hc : b.Covers data lo hi)
    (hfin : vbufferStreamIsfinished stream = true) :
    ∃ h' b', vbufferSubStreamPush h stream b data = (h', stream, b', none) ∧
      b'.content h' = (b.content h).take lo ++ (b.content h).drop hi := by
  obtain ⟨h', A, ctl, T, e, sel, hsel, hs⟩ := select_spec hb hc
  have heof : stream.data.last.flags.eof = true := hfin
  refine ⟨h', ⟨A ++ ctl :: T, e⟩, ?_, ?_⟩
  · unfold vbufferSubStreamPush vbufferStreamPush
    simp only [hsel, heof, if_true]
  · have hctl : ctl.bytes h.mem = [] := by
      have hv := hs.srcWf.valid ctl (by simp [Vbuffer.all])
      rw [hs.mem] at hv
      exact hv.bytes_of_ctl hs.isCtl
    show bytesOf h'.mem (A ++ ctl :: T) = _
    rw [hs.mem, bytesOf_append, bytesOf_cons, hctl, hs.before, hs.after, List.nil_append]

end Haka
