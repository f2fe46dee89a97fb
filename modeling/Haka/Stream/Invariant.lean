import Haka.Stream.Layout

/-!
# The queue held by a stream

`Fifo` says that the data of a stream holds a queue of pushed buffers. Pushes append to the queue;
the end of stream mark, marks and their removal leave it as it is.
-/

namespace Haka

open List

variable {υ : Type}

/-- The stream holds the chunks `pend` still to pop, each with the bytes it was pushed with. -/
structure Fifo (foreign : Bool) (h : Heap) (s : VbufferStream υ)
    (pend : List (StreamChunk υ × List UInt8)) : Prop where
  wf : s.data.WF h
  chunks : s.chunks = pend.map Prod.fst
  layout : Layout h.mem s.id foreign s.readChunks pend (view s.data.all)

section Steps

variable {foreign : Bool} {h h' : Heap} {s : VbufferStream υ} {buffer : Vbuffer}
  {pend : List (StreamChunk υ × List UInt8)}

theorem Fifo.keeps (hf : Fifo foreign h s pend) (hk : h.Keeps h' s.data.all) :
    Fifo foreign h' s pend := by
  refine ⟨hf.wf.keeps hk, hf.chunks, hf.layout.mem_congr fun c hc => ?_⟩
  obtain ⟨d, hd, rfl⟩ := mem_map.1 hc
  exact hk.bytes d hd

theorem Fifo.content (hf : Fifo foreign h s pend)
    (hr : s.readChunks = []) : s.data.content h = (pend.map Prod.snd).flatten := by
  have hlast : s.data.last.bytes h.mem = [] :=
    (hf.wf.valid _ (by simp [Vbuffer.all])).bytes_of_ctl hf.wf.lastCtl
  have hall : s.data.content h = bytesOf h.mem (view s.data.all) := by
    rw [bytesOf_view]
    simp [Vbuffer.content, Vbuffer.all, hlast]
  have hv : ∀ c ∈ view s.data.all, c.Valid h.mem := by
    intro c hc
    obtain ⟨d, hd, rfl⟩ := mem_map.1 hc
    exact (hf.wf.valid d hd).of_core rfl
  have hlayout := hf.layout
  rw [hr] at hlayout
  rw [hall]
  rcases hlayout with hs | ⟨V1, L, V2, heq, hL, -, -, -, hs⟩
  · exact hs.bytes hv
  · rw [heq] at hv ⊢
    have hL0 := (hv L (by simp)).bytes_of_ctl hL.2
    rw [← hs.bytes fun c hc => hv c (by simp only [mem_append, mem_cons] at hc ⊢; tauto)]
    simp [hL0]

theorem Fifo.of_view {data : Vbuffer} (hf : Fifo foreign h s pend)
    (hv : view data.all = view s.data.all) (hl : data.last.flags.ctl = true) :
    Fifo foreign h { s with data := data } pend := by
  refine ⟨hf.wf.of_view (by rw [hv]) hl, hf.chunks, ?_⟩
  rw [hv]
  exact hf.layout

theorem init_fifo (h : Heap) :
    Fifo foreign (vbufferStreamInit (υ := υ) h).1 (vbufferStreamInit (υ := υ) h).2 [] := by
  refine ⟨⟨by simp [vbufferStreamInit, vbufferCreateEmpty, _vbufferInit], ?_, ?_, rfl⟩, rfl, ?_⟩
  · intro c hc
    simp only [vbufferStreamInit, vbufferCreateEmpty, _vbufferInit, Vbuffer.all_mk, nil_append,
      mem_singleton] at hc
    subst hc
    exact Nat.lt_succ_self _
  · intro c hc
    simp only [vbufferStreamInit, vbufferCreateEmpty, _vbufferInit, Vbuffer.all_mk, nil_append,
      mem_singleton] at hc
    subst hc
    exact ⟨by simp [Chunk.bytes, Chunk.setEof, vbufferChunkCreateEnd, endChunk], fun _ => rfl⟩
  · right
    exact ⟨[], _, [], rfl, ⟨rfl, rfl⟩, fun _ => rfl, rfl, by simp, by simp, rfl⟩

theorem finish_fifo (hf : Fifo foreign h s pend) : Fifo foreign h (vbufferStreamFinish s) pend :=
  hf.of_view (by simp [Vbuffer.all]) hf.wf.lastCtl

/-! ## Push -/

theorem Vbuffer.WF.push {h₀ h1 : Heap} {body : List Chunk} {d : Vbuffer} {last «end» node : Chunk}
    (hb : (Vbuffer.mk body last).WF h₀) (hd : d.WF h₀)
    (ha : (Vbuffer.mk body last).Apart d) (hmem : h1.mem = h₀.mem)
    (hnext : h₀.next ≤ node.id) (hid : «end».id = last.id) (hsize : «end».size = last.size)
    (hlt : node.id < h1.next) (hn0 : node.size = 0) (hctl : node.flags.ctl = true) :
    (Vbuffer.mk (body ++ «end» :: d.body) node).WF h1 := by
  have hfresh : ∀ c ∈ body ++ «end» :: d.body, c.id < h₀.next := by
    intro c hc
    simp only [mem_append, mem_cons] at hc
    rcases hc with hc | rfl | hc
    · exact hb.fresh c (by simp [hc])
    · rw [hid]
      exact hb.fresh last (by simp)
    · exact hd.fresh c (by simp [Vbuffer.all, hc])
  refine ⟨?_, fun c hc => ?_, fun c hc => ?_, hctl⟩
  · have hids : idsOf (Vbuffer.mk (body ++ «end» :: d.body) node).all =
        idsOf (Vbuffer.mk body last).all ++ idsOf d.body ++ [node.id] := by simp [hid]
    rw [hids, nodup_append, nodup_append]
    refine ⟨⟨hb.nodup, hd.nodup_body, ?_⟩, by simp, ?_⟩
    · rintro i hi j hj rfl
      exact ha i (by simp [Vbuffer.all, hj]) hi
    · rintro i hi j hj rfl
      have hj' : i = node.id := by simpa using hj
      have hi' : i ∈ idsOf (body ++ «end» :: d.body) := by simpa [hid] using hi
      obtain ⟨c, hc, hci⟩ := (mem_idsOf _).1 hi'
      have := hfresh c hc
      omega
  · rw [Vbuffer.all_mk, mem_append, mem_singleton] at hc
    rcases hc with hc | rfl
    · exact lt_of_lt_of_le (hfresh c hc) (by omega)
    · exact hlt
  · rw [hmem]
    have hempty : ∀ d : Chunk, d.size = 0 → d.Valid h₀.mem := fun d h0 =>
      ⟨by simp [Chunk.bytes, h0], fun _ => h0⟩
    simp only [Vbuffer.all_mk, mem_append, mem_cons, not_mem_nil, or_false] at hc
    rcases hc with (hc | rfl | hc) | rfl
    · exact hb.valid c (by simp [hc])
    · exact hempty _ (hsize.trans hb.last_size)
    · exact hd.valid_body c hc
    · exact hempty _ hn0

/-- A push: `end`, which was the end of the stream, becomes a push node, and a new `node` stands
behind the chunks of the buffer. -/
structure Appended (h : Heap) (s : VbufferStream υ) (buffer : Vbuffer) (userdata : Option υ) (n : ℕ)
    («end» node : Chunk) : Prop where
  push : vbufferStreamPush h s buffer userdata =
    (⟨n + 1, h.mem⟩, { s with
      data := ⟨s.data.body ++ «end» :: buffer.body, node⟩
      chunks := s.chunks ++ [⟨h.next, h.next + 1, n, userdata⟩] }, { buffer with body := [] },
      some ⟨(Cut.mk [] buffer.body node).chunk.id, 0, 0, false⟩)
  next : h.next ≤ n
  id : «end».id = s.data.last.id
  size : «end».size = s.data.last.size
  ctl : «end».flags.ctl = s.data.last.flags.ctl
  same : s.data.last.data ≠ .null → «end».core = s.data.last.core
  null : s.data.last.data = .null → ∃ a, «end».data = .push a s.id none
  node : ∃ modified writable, node =
    ⟨n, ⟨false, modified, writable, true⟩, .push (h.next + 1) s.id (some h.next), 0, 0⟩

theorem push_appended (h : Heap) (buffer : Vbuffer) (heof : s.data.last.flags.eof = false)
    (userdata : Option υ) : ∃ n «end» node, Appended h s buffer userdata n «end» node := by
  have hcurrent : ∀ node : Chunk, (if vbufferIsempty buffer then (⟨node.id, 0, 0, false⟩ : Iterator)
      else vbufferPosition buffer 0 (some 0)) =
        ⟨(Cut.mk [] buffer.body node).chunk.id, 0, 0, false⟩ := by
    intro node
    cases hbody : buffer.body <;> simp [vbufferIsempty, hbody, Cut.chunk, vbufferPosition]
  by_cases h0 : s.data.last.data = .null
  · refine ⟨h.next + 3, { s.data.last with data := .push (h.next + 2) s.id none }.setEof false, _,
      ?_, by omega, rfl, rfl, rfl, fun hn => absurd h0 hn, fun _ => ⟨h.next + 2, rfl⟩,
      s.data.last.flags.modified, vbufferIswritable buffer, rfl⟩
    rw [← hcurrent]
    simp [vbufferStreamPush, oldEnd, pushNode, heof, h0]
  · refine ⟨h.next + 2, s.data.last.setEof false, _, ?_, by omega, rfl, rfl, rfl, fun _ => rfl,
      fun hn => absurd hn h0, s.data.last.flags.modified, vbufferIswritable buffer, rfl⟩
    rw [← hcurrent]
    simp [vbufferStreamPush, oldEnd, pushNode, heof, h0]

theorem Appended.wf {userdata : Option υ} {n : ℕ} {«end» node : Chunk}
    (hp : Appended h s buffer userdata n «end» node) (hb : s.data.WF h) (hd : buffer.WF h)
    (ha : s.data.Apart buffer) :
    (Vbuffer.mk (s.data.body ++ «end» :: buffer.body) node).WF ⟨n + 1, h.mem⟩ := by
  obtain ⟨modified, writable, rfl⟩ := hp.node
  exact hb.push hd ha rfl hp.next hp.id hp.size (Nat.lt_succ_self _) rfl rfl

/-- What a push leaves: the memory, the stream's address, a stream that is not finished, and the
chunks of the stream and of the buffer among new ones. -/
structure PushFrame (h : Heap) (s : VbufferStream υ) (buffer : Vbuffer) (h' : Heap)
    (s' : VbufferStream υ) : Prop where
  mem : h'.mem = h.mem
  next : h.next ≤ h'.next
  id : s'.id = s.id
  eof : s'.data.last.flags.eof = false
  ids : ∀ i ∈ idsOf s'.data.all, i ∈ idsOf s.data.all ∨ i ∈ idsOf buffer.all ∨ h.next ≤ i

/-- A buffer that can be pushed: it shares no chunk with the stream and has no push node of it. -/
structure Pushable (foreign : Bool) (h : Heap) (s : VbufferStream υ) (b : Vbuffer) : Prop where
  wf : b.WF h
  apart : s.data.Apart b
  plain : ∀ c ∈ b.body, Plain s.id foreign c

theorem Pushable.push {s' : VbufferStream υ} {b : Vbuffer} (hb : Pushable foreign h s b)
    (hfr : PushFrame h s buffer h' s') (ha : buffer.Apart b) : Pushable foreign h' s' b := by
  refine ⟨hb.wf.mono hfr.mem hfr.next, fun i hi hm => ?_, by rw [hfr.id]; exact hb.plain⟩
  rcases hfr.ids i hm with hm | hm | hm
  · exact hb.apart i hi hm
  · exact ha i hi hm
  · obtain ⟨y, hy, rfl⟩ := (mem_idsOf _).1 hi
    have := hb.wf.fresh y hy
    omega

/-- **Push.** A push into a stream that is not finished appends the buffer to the queue. -/
theorem push_fifo (hf : Fifo foreign h s pend) (hbuf : Pushable foreign h s buffer)
    (heof : s.data.last.flags.eof = false) (userdata : Option υ) :
    ∃ h' s' current sc, vbufferStreamPush h s buffer userdata =
        (h', s', { buffer with body := [] }, some current) ∧
      sc.userdata = userdata ∧ PushFrame h s buffer h' s' ∧
      Fifo foreign h' s' (pend ++ [(sc, buffer.content h)]) := by
  obtain ⟨hb, ha, hp⟩ := hbuf
  obtain ⟨n, «end», node, happ⟩ := push_appended h buffer heof userdata
  have hwf := happ.wf hf.wf hb ha
  obtain ⟨modified, writable, hnode⟩ := happ.node
  refine ⟨_, _, _, ⟨h.next, h.next + 1, n, userdata⟩, happ.push, rfl,
    ⟨rfl, happ.next.trans (Nat.le_succ n), rfl, by rw [hnode], fun i hi => ?_⟩, hwf,
    by simp [hf.chunks], ?_⟩
  · simp only [Vbuffer.all, idsOf_append, idsOf_cons, idsOf_nil, mem_append, mem_cons,
      not_mem_nil, or_false] at hi ⊢
    rcases hi with (hi | hi | hi) | hi
    · exact .inl (.inl hi)
    · exact .inl (.inr (hi.trans happ.id))
    · exact .inr (.inl (.inl hi))
    · rw [hi, hnode]
      exact .inr (.inr happ.next)
  · have hl : Layout h.mem s.id foreign s.readChunks pend
        (view s.data.body ++ [s.data.last.core]) := by simpa [Vbuffer.all] using hf.layout
    have hpush : Layout h.mem s.id foreign s.readChunks
        (pend ++ [(⟨h.next, h.next + 1, n, userdata⟩, bytesOf h.mem (view buffer.body))])
        (view s.data.body ++ «end».core :: view buffer.body ++ [node.core]) :=
      hl.push happ.same (fun hn => ?_) (plain_view.2 hp) (by rw [hnode]; exact ⟨rfl, rfl, rfl⟩)
    · rw [bytesOf_view] at hpush
      simpa [Vbuffer.all, Vbuffer.content] using hpush
    · obtain ⟨a, ha⟩ := happ.null hn
      refine ⟨⟨by simp [ha, Data.isLeft], ?_⟩, by simp [ha]⟩
      rw [Chunk.core_ctl, happ.ctl]
      exact hf.wf.lastCtl

/-! ## Marks -/

/-- What `vbuffer_iterator_mark` does: it cuts the data chunks `X`, one or none, in `l` and `r`, and
inserts the mark between them. -/
structure Marked (h : Heap) (b : Vbuffer) (h' : Heap) (mark : Chunk) (P X Q l r : List Chunk) :
    Prop where
  body : b.body = P ++ X ++ Q
  mem : h'.mem = h.mem
  next : h.next ≤ h'.next
  wf : (Vbuffer.mk (P ++ l ++ mark :: (r ++ Q)) b.last).WF h'
  bytes : bytesOf h.mem (l ++ r) = bytesOf h.mem X
  noCtl : ∀ x ∈ X, x.flags.ctl = false
  parts : ∀ x ∈ l ++ r, ∃ d ∈ X, x.flags = d.flags ∧ x.data = d.data
  new : h.next ≤ mark.id
  ctl : mark.flags.ctl = true
  data : ∃ a readonly, mark.data = .mark a readonly
  size : mark.size = 0

theorem mark_parts {b : Vbuffer} {pos : Iterator} (hb : b.WF h)
    (hr : _vbufferIteratorCheck b pos = true → b.InRange pos) (readonly : Bool) :
    vbufferIteratorMark h b pos readonly = (h, b, pos, false) ∨
      ∃ h' pos' mark P X Q l r, Marked h b h' mark P X Q l r ∧
        vbufferIteratorMark h b pos readonly =
          (h', ⟨P ++ l ++ mark :: (r ++ Q), b.last⟩, pos', true) := by
  unfold vbufferIteratorMark
  by_cases hc : _vbufferIteratorCheck b pos = true
  swap
  · rw [if_neg hc]
    exact .inl rfl
  rw [if_pos hc]
  obtain ⟨h', P, X, Q, l, r, hbody, hsplit, hmem, hnext, hwf, hbytes, hX, hlr⟩ :=
    split_parts hb (hr hc)
  rw [hsplit]
  refine .inr ⟨⟨h'.next + 2, h'.mem⟩, _, ⟨h'.next + 1, ⟨false, false,
    ((r ++ Q).headD b.last).flags.writable, true⟩, .mark h'.next readonly, 0, 0⟩, P, X, Q, l, r,
    ⟨hbody, hmem, by dsimp only; omega, ?_, hbytes, hX, hlr, by dsimp only; omega, rfl,
      ⟨_, _, rfl⟩, rfl⟩, by rw [← singleton_append, ← append_assoc]; rfl⟩
  exact hwf.insertCtl rfl (by simp) (by simp) (by simp) ⟨by simp [Chunk.bytes], fun _ => rfl⟩

/-- **Mark.** A mark leaves the queue as it is. -/
theorem mark_fifo {pos : Iterator} (hf : Fifo foreign h s pend)
    (hr : _vbufferIteratorCheck s.data pos = true → s.data.InRange pos) (readonly : Bool) :
    ∃ h' data pos' ok, vbufferIteratorMark h s.data pos readonly = (h', data, pos', ok) ∧
      h'.mem = h.mem ∧ h.next ≤ h'.next ∧ Fifo foreign h' { s with data := data } pend := by
  rcases mark_parts hf.wf hr readonly with heq | ⟨h', pos', mark, P, X, Q, l, r, hm, heq⟩
  · exact ⟨h, s.data, pos, false, heq, rfl, le_refl _, hf⟩
  refine ⟨h', _, pos', true, heq, hm.mem, hm.next, hm.wf, hf.chunks, ?_⟩
  have hplainX : ∀ x ∈ X, Plain s.id foreign x := by
    intro x hx
    have hxl : x.core ∈ view s.data.all := mem_map_of_mem (by simp [Vbuffer.all, hm.body, hx])
    rcases hf.layout.mem x.core hxl with hp | ⟨hp, -⟩
    · exact plain_core.1 hp
    · simp [hm.noCtl x hx] at hp
  rw [hm.mem]
  have hrep := Layout.replace (Y := view (l ++ mark :: r))
    (B := view (Q ++ [s.data.last])) (plain_view.2 hplainX) (plain_view.2 ?_) ?_ (by simp)
    (by simpa [Vbuffer.all, hm.body] using hf.layout)
  · simpa [Vbuffer.all] using hrep
  · have hpart : ∀ x ∈ l ++ r, Plain s.id foreign x := fun x hx => by
      obtain ⟨d, hd, hfl, hda⟩ := hm.parts x hx
      exact ⟨hda ▸ (hplainX d hd).data, by rw [hda, hfl]; exact (hplainX d hd).mark⟩
    intro x hx
    rcases mem_append.1 hx with hx | hx
    · exact hpart x (mem_append_left _ hx)
    · rcases mem_cons.1 hx with rfl | hx
      · obtain ⟨a, readonly, hd⟩ := hm.data
        exact ⟨by rw [hd]; rfl, fun _ => hm.ctl⟩
      · exact hpart x (mem_append_right _ hx)
  · rw [bytesOf_view, bytesOf_view, ← hm.bytes]
    simp [Chunk.bytes, hm.size]

theorem body_of_seek {b : Vbuffer} {i : ℕ} {ctl : Chunk} {after : List Chunk}
    (hk : (b.seek i).after = ctl :: after) : b.body = (b.seek i).before ++ ctl :: after := by
  have := congrArg Vbuffer.body (Vbuffer.seek_toVbuffer b i)
  rw [← this, Cut.toVbuffer, hk]

theorem unmark_cases (b : Vbuffer) (pos : Iterator) :
    (vbufferIteratorUnmark b pos).1 = b ∨ ∃ P ctl after, b.body = P ++ ctl :: after ∧
      ctl.data.isMark = true ∧
      (vbufferIteratorUnmark b pos).1 = (vbufferChunkRemoveCtl P ctl after b.last).toVbuffer := by
  unfold vbufferIteratorUnmark
  split_ifs with hc
  swap
  · exact .inl rfl
  dsimp only
  split
  · exact .inl rfl
  · next ctl after hk =>
    split_ifs with hm
    · exact .inr ⟨_, ctl, after, body_of_seek hk, hm, rfl⟩
    · exact .inl rfl

/-- **Unmark.** The removal of a mark leaves the queue as it is. -/
theorem unmark_fifo {pos : Iterator} (hf : Fifo foreign h s pend) :
    Fifo foreign h { s with data := (vbufferIteratorUnmark s.data pos).1 } pend := by
  rcases unmark_cases s.data pos with heq | ⟨P, ctl, after, hbody, hm, heq⟩ <;> rw [heq]
  · exact hf
  have hall : s.data.all = P ++ [ctl] ++ (after ++ [s.data.last]) := by simp [Vbuffer.all, hbody]
  have hctl : Plain s.id foreign ctl := by
    rcases hf.layout.mem ctl.core (mem_map_of_mem (by simp [hall])) with hp | ⟨-, hp⟩
    · exact plain_core.1 hp
    · simp [hm] at hp
  refine ⟨hf.wf.of_view ?_ (by cases after <;> exact hf.wf.lastCtl), hf.chunks, ?_⟩
  · rw [removeCtl_view, hall]
    simp
  · have hrep := Layout.replace (X := [ctl.core]) (Y := []) (B := view (after ++ [s.data.last]))
      (by simpa using hctl) (by simp) ?_ (by simp) (by simpa [hall] using hf.layout)
    · rw [removeCtl_view]
      simpa using hrep
    · have hb := (hf.wf.valid ctl (by simp [hall])).bytes_of_ctl (hctl.mark hm)
      simpa [Chunk.bytes, Chunk.core] using hb

end Steps

end Haka
