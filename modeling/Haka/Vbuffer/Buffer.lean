import Haka.Vbuffer.Chunk
import Mathlib.Data.List.TakeWhile

/-!
# Virtual buffers

`struct vbuffer` is a circular list of chunks whose sentinel is the end chunk `buffer->chunks`.
Here the chunks from `vbuffer_chunk_begin` on are the field `body` and the end chunk is the field
`last`, so that every buffer has exactly one end chunk and it comes last.

A pointer to a chunk inside a function is a `Cut`: the chunks before it and the chunks from it on;
a cut with nothing after designates the end chunk.
-/

namespace Haka

open List

/-- `struct vbuffer`: the chunks before the end chunk, and the end chunk. -/
structure Vbuffer where
  body : List Chunk
  last : Chunk
  deriving DecidableEq, Repr

/-- A buffer seen from one of its chunks: the head of `after`, or `last` when `after` is empty. -/
structure Cut where
  before : List Chunk
  after : List Chunk
  last : Chunk
  deriving DecidableEq, Repr

namespace Cut

def toVbuffer (k : Cut) : Vbuffer := ⟨k.before ++ k.after, k.last⟩

def chunk (k : Cut) : Chunk := k.after.headD k.last

def mapChunk (f : Chunk → Chunk) (k : Cut) : Cut :=
  match k.after with
  | [] => ⟨k.before, [], f k.last⟩
  | iter :: rest => ⟨k.before, f iter :: rest, k.last⟩

/-- `vbuffer_chunk_mark_modified` of the designated chunk. -/
def markModified (k : Cut) : Cut := k.mapChunk Chunk.markModified

/-- `list2_insert_list` before the designated chunk. -/
def insert (k : Cut) (l : List Chunk) : Vbuffer := ⟨k.before ++ l ++ k.after, k.last⟩

end Cut

namespace Vbuffer

/-- All chunks, the end chunk included, as `VBUFFER_FOR_EACH` meets them. -/
def all (b : Vbuffer) : List Chunk := b.body ++ [b.last]

def content (h : Heap) (b : Vbuffer) : List UInt8 := bytesOf h.mem b.body

def ctls (b : Vbuffer) : List (ℕ × Data) := ctlsOf b.body

/-- The cut at the chunk with a given address, at the end chunk if there is none. -/
def seek (b : Vbuffer) (id : ℕ) : Cut :=
  ⟨b.body.takeWhile (fun c => c.id ≠ id), b.body.dropWhile (fun c => c.id ≠ id), b.last⟩

/-- A buffer as the list operations build it: the chunks are distinct and allocated in the heap,
their slices lie inside their blocks, and the end chunk is a control chunk. -/
structure WF (h : Heap) (b : Vbuffer) : Prop where
  nodup : (idsOf b.all).Nodup
  fresh : ∀ c ∈ b.all, c.id < h.next
  valid : ∀ c ∈ b.all, c.Valid h.mem
  lastCtl : b.last.flags.ctl = true

instance (h : Heap) (b : Vbuffer) : Decidable (b.WF h) :=
  decidable_of_iff ((idsOf b.all).Nodup ∧ (∀ c ∈ b.all, c.id < h.next) ∧
      (∀ c ∈ b.all, c.Valid h.mem) ∧ b.last.flags.ctl = true)
    ⟨fun h => ⟨h.1, h.2.1, h.2.2.1, h.2.2.2⟩, fun h => ⟨h.nodup, h.fresh, h.valid, h.lastCtl⟩⟩

def Writable (b : Vbuffer) : Prop := ∀ c ∈ b.all, c.flags.writable = true

end Vbuffer

/-! ## Creation and whole-buffer operations -/

/-- An end chunk as `vbuffer_chunk_create_end` fills it in. -/
def endChunk (id : ℕ) (writable : Bool) : Chunk :=
  { id := id, flags := ⟨true, false, writable, true⟩, data := .null, offset := 0, size := 0 }

def vbufferChunkCreateEnd (h : Heap) (writable : Bool) : Heap × Chunk :=
  ({ h with next := h.next + 1 }, endChunk h.next writable)

/-- `_vbuffer_init`: an empty buffer. -/
def _vbufferInit (h : Heap) (writable : Bool) : Heap × Vbuffer :=
  ((vbufferChunkCreateEnd h writable).1, ⟨[], (vbufferChunkCreateEnd h writable).2⟩)

def vbufferCreateEmpty (h : Heap) : Heap × Vbuffer := _vbufferInit h true

def vbufferChunkCreate (h : Heap) (data : Data) (offset length : ℕ) : Heap × Chunk :=
  ({ h with next := h.next + 1 },
    { id := h.next, flags := ⟨false, false, true, false⟩, data := data, offset := offset,
      size := length })

/-- `vbuffer_data_basic` followed by a `memcpy` of `str` into the new block. -/
def vbufferDataBasic (h : Heap) (str : List UInt8) : Heap × Data :=
  (⟨h.next + 1, Function.update h.mem h.next str⟩, .basic h.next)

/-- `vbuffer_create_from`: a buffer of one chunk over a new block. -/
def vbufferCreateFrom (h : Heap) (str : List UInt8) : Heap × Vbuffer :=
  let (h₁, data) := vbufferDataBasic h str
  let (h₂, chunk) := vbufferChunkCreate h₁ data 0 str.length
  let (h₃, buffer) := _vbufferInit h₂ true
  (h₃, { buffer with body := [chunk] })

def vbufferSize (b : Vbuffer) : ℕ := totalSize b.all

/-- `vbuffer_isempty`: no chunk but the end chunk. -/
def vbufferIsempty (b : Vbuffer) : Bool := b.body.isEmpty

def vbufferSetwritable (b : Vbuffer) (writable : Bool) : Vbuffer :=
  ⟨b.body.map (Chunk.setWritable writable), b.last.setWritable writable⟩

def vbufferIswritable (b : Vbuffer) : Bool := b.last.flags.writable

def vbufferIsmodified (b : Vbuffer) : Bool := b.all.any fun c => c.flags.modified

/-- `vbuffer_append`: the chunks of `buffer` are moved before the end chunk of `b`. -/
def vbufferAppend (b buffer : Vbuffer) : Vbuffer × Vbuffer :=
  (⟨b.body ++ buffer.body, b.last.markModified⟩, { buffer with body := [] })

/-! ## Lemmas -/

namespace Vbuffer

variable {h : Heap} {b : Vbuffer}

@[simp] theorem all_mk (l : List Chunk) (e : Chunk) : (Vbuffer.mk l e).all = l ++ [e] := rfl

theorem WF.valid_body (hb : b.WF h) : ∀ c ∈ b.body, c.Valid h.mem :=
  fun c hc => hb.valid c (mem_append_left _ hc)

theorem WF.length_content (hb : b.WF h) : (b.content h).length = totalSize b.body :=
  length_bytesOf hb.valid_body

theorem WF.last_size (hb : b.WF h) : b.last.size = 0 :=
  (hb.valid b.last (by simp [all])).ctlSize hb.lastCtl

theorem WF.nodup_body (hb : b.WF h) : (idsOf b.body).Nodup := by
  have := hb.nodup
  unfold all at this
  rw [idsOf_append] at this
  exact this.of_append_left

theorem WF.last_notMem (hb : b.WF h) : b.last.id ∉ idsOf b.body := by
  have := hb.nodup
  unfold all at this
  rw [idsOf_append, nodup_append] at this
  intro hm
  exact this.2.2 _ hm _ (by simp) rfl

end Vbuffer

variable {l : List Chunk} {c : Chunk}

theorem takeWhile_id {r : List Chunk} (hc : c.id ∉ idsOf l) :
    (l ++ c :: r).takeWhile (fun x => x.id ≠ c.id) = l := by
  induction l with
  | nil => simp
  | cons x l ih =>
    simp only [idsOf_cons, mem_cons, not_or] at hc
    rw [cons_append, takeWhile_cons_of_pos (by simpa using Ne.symm hc.1), ih hc.2]

theorem dropWhile_id {r : List Chunk} (hc : c.id ∉ idsOf l) :
    (l ++ c :: r).dropWhile (fun x => x.id ≠ c.id) = c :: r := by
  induction l with
  | nil => simp
  | cons x l ih =>
    simp only [idsOf_cons, mem_cons, not_or] at hc
    rw [cons_append, dropWhile_cons_of_pos (by simpa using Ne.symm hc.1), ih hc.2]

theorem takeWhile_id_absent {i : ℕ} (hi : i ∉ idsOf l) : l.takeWhile (fun x => x.id ≠ i) = l := by
  rw [takeWhile_eq_self_iff]
  intro x hx
  simp only [ne_eq, decide_not, Bool.not_eq_eq_eq_not, Bool.not_true, decide_eq_false_iff_not]
  exact fun he => hi ((mem_idsOf l).2 ⟨x, hx, he⟩)

theorem dropWhile_id_absent {i : ℕ} (hi : i ∉ idsOf l) : l.dropWhile (fun x => x.id ≠ i) = [] := by
  rw [dropWhile_eq_nil_iff]
  intro x hx
  simp only [ne_eq, decide_not, Bool.not_eq_eq_eq_not, Bool.not_true, decide_eq_false_iff_not]
  exact fun he => hi ((mem_idsOf l).2 ⟨x, hx, he⟩)

namespace Vbuffer

theorem seek_toVbuffer (b : Vbuffer) (id : ℕ) : (b.seek id).toVbuffer = b := by
  unfold seek Cut.toVbuffer
  rw [takeWhile_append_dropWhile]

theorem seek_mk {r : List Chunk} {e : Chunk} (hc : c.id ∉ idsOf l) :
    (Vbuffer.mk (l ++ c :: r) e).seek c.id = ⟨l, c :: r, e⟩ := by
  unfold seek
  rw [takeWhile_id hc, dropWhile_id hc]

theorem seek_last {h : Heap} {b : Vbuffer} (hb : b.WF h) : b.seek b.last.id = ⟨b.body, [], b.last⟩ := by
  unfold seek
  rw [takeWhile_id_absent hb.last_notMem, dropWhile_id_absent hb.last_notMem]

theorem exists_of_mem_ids {id : ℕ} (hid : id ∈ idsOf l) :
    ∃ p c r, l = p ++ c :: r ∧ c.id = id ∧ id ∉ idsOf p := by
  induction l with
  | nil => simp at hid
  | cons x l ih =>
    by_cases hx : x.id = id
    · exact ⟨[], x, l, rfl, hx, by simp⟩
    · have hl : id ∈ idsOf l := by
        rw [idsOf_cons, mem_cons] at hid
        exact hid.resolve_left fun he => hx he.symm
      obtain ⟨p, c, r, rfl, hc, hp⟩ := ih hl
      refine ⟨x :: p, c, r, rfl, hc, ?_⟩
      rw [idsOf_cons, mem_cons, not_or]
      exact ⟨fun he => hx he.symm, hp⟩

end Vbuffer

end Haka
