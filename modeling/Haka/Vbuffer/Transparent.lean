import Haka.Vbuffer.RoundTrip

/-!
# Cuts and marks under other iterators

`vbuffer_iterator_split`, `vbuffer_iterator_mark`, `vbuffer_iterator_unmark` and
`vbuffer_iterator_sub` with a split change the chunks of a buffer, never its bytes. Another
iterator is an address and an offset, so it keeps its logical position as long as its chunk stays
in the list. What it may lose is the right to be used: a registered iterator must not be past the
end of its chunk, and a cut makes a chunk shorter (`split_inRange_iff`).
-/

namespace Haka

open List Vbuffer

/-! ## The check of an iterator -/

section Check

variable {h h' : Heap} {b b' : Vbuffer} {pos it : Iterator}

theorem check_iff (hnd : (idsOf b.all).Nodup) : _vbufferIteratorCheck b it = true ↔
      ∃ c ∈ b.all, c.id = it.chunk ∧ (it.registered = true → it.offset ≤ c.size) := by
  unfold _vbufferIteratorCheck
  constructor
  · intro hcheck
    cases hfind : b.all.find? fun c => c.id = it.chunk with
    | none => simp [hfind] at hcheck
    | some c =>
      have hid : c.id = it.chunk := by simpa using find?_some hfind
      exact ⟨c, mem_of_find?_eq_some hfind, hid, by simpa [hfind, imp_iff_not_or] using hcheck⟩
  · rintro ⟨c, hc, hid, hreg⟩
    obtain ⟨l, r, hall⟩ := append_of_mem hc
    have hl : ∀ x ∈ l, ¬decide (x.id = it.chunk) = true := by
      intro x hx hxid
      rw [hall, idsOf_append, nodup_append] at hnd
      exact hnd.2.2 x.id ((mem_idsOf _).2 ⟨x, hx, rfl⟩) c.id (by simp)
        ((of_decide_eq_true hxid).trans hid.symm)
    rw [hall, find?_append, find?_eq_none.2 hl, Option.none_or, find?_cons_of_pos (by simp [hid])]
    simpa [imp_iff_not_or] using hreg

variable {k : Cut} {i : ℕ} {c : Chunk} {A B : List Chunk}

theorem check_cut (hnd : (idsOf k.toVbuffer.all).Nodup)
    (hcheck : _vbufferIteratorCheck k.toVbuffer it = true) (hreg : it.registered = true) :
    k.toVbuffer.offsetOf it ≤ totalSize k.before ∨
      totalSize k.before ≤ sizeBefore k.toVbuffer.body it.chunk := by
  obtain ⟨c, hc, hid, hle⟩ := (check_iff hnd).1 hcheck
  by_cases hm : it.chunk ∈ idsOf k.before
  · left
    obtain ⟨P, d, M, hP, hd, hnot⟩ := exists_of_mem_ids hm
    have hdc : d = c := by
      have hd' : d ∈ k.toVbuffer.all := by simp [Cut.toVbuffer, Vbuffer.all, hP]
      exact inj_on_of_nodup_map hnd hd' hc (hd.trans hid.symm)
    have hoff := hle hreg
    rw [offsetOf, Cut.toVbuffer, hP, append_assoc, cons_append, sizeBefore_middle hd hnot]
    simp only [totalSize_append, totalSize_cons, hdc]
    omega
  · right
    rw [Cut.toVbuffer, sizeBefore_append_of_notMem hm]
    exact Nat.le_add_right _ _

/-! ## A cut -/

/-- An iterator that a cut at `p` leaves usable: if it is registered, it is not past `p` in the
chunk that is cut there. -/
def Vbuffer.NotPast (b : Vbuffer) (p : ℕ) (it : Iterator) : Prop :=
  it.registered = true → b.offsetOf it ≤ p ∨ p ≤ sizeBefore b.body it.chunk

instance (b : Vbuffer) (p : ℕ) (it : Iterator) : Decidable (b.NotPast p it) :=
  inferInstanceAs (Decidable (it.registered = true → _))

/-- A chunk of the buffer is in the list after the cut, unless it was cut: then its first part has
its address and ends at the cut. -/
theorem split_chunk {p : ℕ} (hsplit : _vbufferIteratorSplit h b pos false = (h', some k))
    (hs : SplitAt h b p i h' k) (hc : c ∈ b.all) :
    c ∈ k.toVbuffer.all ∨ ∃ P rest off, b.body = P ++ c :: rest ∧ 0 < off ∧
      totalSize P + off = p ∧ c.left off ∈ k.toVbuffer.all := by
  obtain ⟨-, -, rfl, -⟩ | ⟨P, iter, rest, off, -, hbody, -, -, -, rfl⟩ := split_inv hsplit
  · left
    simpa [Cut.toVbuffer, Chunk.markIf, Vbuffer.all] using hc
  · have hsize := hs.size
    unfold splitChunk at hsize ⊢
    simp only [Chunk.markIf, Bool.false_eq_true, if_false] at hsize ⊢
    rw [Vbuffer.all, hbody] at hc
    by_cases h0 : off = 0
    · left
      simpa [Cut.toVbuffer, Vbuffer.all, h0] using hc
    by_cases hfull : off = iter.size
    · left
      have hne : iter.size ≠ 0 := by omega
      simpa [Cut.toVbuffer, Vbuffer.all, hfull, hne] using hc
    · simp only [h0, hfull, if_false] at hsize ⊢
      by_cases hci : c = iter
      · subst hci
        right
        refine ⟨P, rest, off, hbody, by omega, ?_, by simp [Cut.toVbuffer, Vbuffer.all]⟩
        simpa [totalSize_append, Chunk.left] using hsize
      · left
        have hc' : c ∈ P ∨ c ∈ rest ∨ c = b.last := by simpa [hci] using hc
        simp only [Cut.toVbuffer, all_mk, mem_append, mem_cons, not_mem_nil, or_false]
        tauto

/-- **A cut and another iterator.** After a cut at `p` an iterator is where it was, and usable
exactly if it is not registered past `p` in the chunk that was cut. -/
theorem split_inRange_iff {p : ℕ} (hb : b.WF h)
    (hsplit : _vbufferIteratorSplit h b pos false = (h', some k)) (hs : SplitAt h b p i h' k)
    (hit : b.InRange it) : k.toVbuffer.InRange it ↔ b.NotPast p it := by
  have hmem := mem_ids_of_check hit.check
  have hoff := hs.offsetOf hb hmem
  have hstart : sizeBefore k.toVbuffer.body it.chunk = sizeBefore b.body it.chunk := by
    unfold offsetOf at hoff
    omega
  constructor
  · intro hin hreg
    rw [← hoff, ← hstart, ← hs.size]
    exact check_cut hs.wf.nodup hin.check hreg
  · intro hpast
    refine ⟨(check_iff hs.wf.nodup).2 ?_, ?_⟩
    · obtain ⟨c, hc, hid, hle⟩ := (check_iff hb.nodup).1 hit.check
      obtain hkept | ⟨P, rest, off, hbody, hpos, hp, hleft⟩ := split_chunk hsplit hs hc
      · exact ⟨c, hkept, hid, hle⟩
      · refine ⟨c.left off, hleft, hid, fun hreg => ?_⟩
        have hP : it.chunk ∉ idsOf P := by
          have hnd := hb.nodup_body
          rw [hbody, idsOf_append, nodup_append] at hnd
          exact fun hm => hnd.2.2 _ hm c.id (by simp) hid.symm
        have hnot := hpast hreg
        rw [offsetOf, hbody, sizeBefore_middle hid hP] at hnot
        show it.offset ≤ off
        omega
    · rw [hoff, hs.totalSize_toVbuffer hb]
      exact hit.le

/-! ## A control chunk that comes or goes -/

theorem sizeBefore_insert (hc : c.size = 0) (hi : i ≠ c.id) :
    sizeBefore (A ++ c :: B) i = sizeBefore (A ++ B) i := by
  by_cases hA : i ∈ idsOf A
  · rw [sizeBefore_append_of_mem hA, sizeBefore_append_of_mem hA]
  · rw [sizeBefore_append_of_notMem hA, sizeBefore_append_of_notMem hA, sizeBefore, sizeBefore,
      takeWhile_cons_of_pos (by simpa using hi.symm), totalSize_cons, hc, Nat.zero_add]

theorem inRange_insertCtl {e : Chunk} (hc : c.size = 0) (hi : it.chunk ≠ c.id) :
    (mk (A ++ c :: B) e).offsetOf it = (mk (A ++ B) e).offsetOf it ∧
      ((mk (A ++ c :: B) e).InRange it ↔ (mk (A ++ B) e).InRange it) := by
  have hoff : (mk (A ++ c :: B) e).offsetOf it = (mk (A ++ B) e).offsetOf it := by
    rw [offsetOf, offsetOf, sizeBefore_insert hc hi]
  have hcheck : _vbufferIteratorCheck ⟨A ++ c :: B, e⟩ it =
      _vbufferIteratorCheck ⟨A ++ B, e⟩ it := by
    unfold _vbufferIteratorCheck
    simp only [all_mk, append_assoc, cons_append, find?_append]
    rw [find?_cons_of_neg (by simpa using hi.symm), find?_append]
  have hsize : totalSize (A ++ c :: B) = totalSize (A ++ B) := by
    simp only [totalSize_append, totalSize_cons, hc, Nat.zero_add]
  refine ⟨hoff, fun hin => ⟨hcheck ▸ hin.check, ?_⟩, fun hin => ⟨hcheck ▸ hin.check, ?_⟩⟩
  · rw [← hoff]
    exact hsize ▸ hin.le
  · rw [hoff]
    exact hsize.symm ▸ hin.le

theorem offsetOf_unmark (b : Vbuffer) (it : Iterator) : b.unmark.offsetOf it = b.offsetOf it := by
  unfold offsetOf sizeBefore unmark
  rw [takeWhile_map, totalSize_unmark]
  rfl

theorem inRange_unmark (b : Vbuffer) (it : Iterator) : b.unmark.InRange it ↔ b.InRange it := by
  have hsize : totalSize b.unmark.body = totalSize b.body := totalSize_unmark _
  constructor
  · intro hin
    exact ⟨by rw [← check_unmark]; exact hin.check,
      by rw [← offsetOf_unmark, ← hsize]; exact hin.le⟩
  · intro hin
    exact ⟨by rw [check_unmark]; exact hin.check, by rw [offsetOf_unmark, hsize]; exact hin.le⟩

theorem removeCtl_unmark (A : List Chunk) (c : Chunk) (B : List Chunk) (e : Chunk) :
    (vbufferChunkRemoveCtl A c B e).toVbuffer.unmark = (mk (A ++ B) e).unmark := by
  cases B <;> simp [vbufferChunkRemoveCtl, Cut.mapChunk, Cut.toVbuffer, unmark,
    Chunk.orModified, Chunk.unmark]

theorem inRange_removeCtl {e : Chunk} (hc : c.size = 0)
    (hnd : (idsOf (mk (A ++ c :: B) e).all).Nodup)
    (hit : (mk (A ++ c :: B) e).InRange it) :
    ((vbufferChunkRemoveCtl A c B e).toVbuffer.InRange it ↔ it.chunk ≠ c.id) ∧
      (it.chunk ≠ c.id → (vbufferChunkRemoveCtl A c B e).toVbuffer.offsetOf it =
        (mk (A ++ c :: B) e).offsetOf it) := by
  rw [← inRange_unmark, ← offsetOf_unmark, removeCtl_unmark, inRange_unmark, offsetOf_unmark]
  refine ⟨⟨fun hin hid => ?_, fun hi => (inRange_insertCtl hc hi).2.1 hit⟩,
    fun hi => (inRange_insertCtl hc hi).1.symm⟩
  have hmem := mem_ids_of_check hin.check
  rw [all_mk, append_assoc, cons_append, idsOf_append, idsOf_cons,
    nodup_middle, nodup_cons] at hnd
  rw [hid, all_mk, append_assoc, idsOf_append] at hmem
  exact hnd.1 hmem

end Check

/-! ## The four calls -/

/-- The calls that cut a buffer at an iterator, or set or remove a mark there. -/
inductive CutCall where
  | split
  | mark (readonly : Bool)
  | unmark
  | sub (len : ℕ)
  deriving DecidableEq, Repr

namespace CutCall

/-- The heap and the buffer after a call. -/
def run (h : Heap) (b : Vbuffer) (pos : Iterator) : CutCall → Heap × Vbuffer
  | split => ((vbufferIteratorSplit h b pos).1, (vbufferIteratorSplit h b pos).2.1)
  | mark readonly =>
    ((vbufferIteratorMark h b pos readonly).1, (vbufferIteratorMark h b pos readonly).2.1)
  | unmark => (h, (vbufferIteratorUnmark b pos).1)
  | sub len => ((vbufferIteratorSub h b pos len true).1, (vbufferIteratorSub h b pos len true).2.1)

/-- A call leaves an iterator usable, but for a cut of its chunk before the place it is registered
at, and for the removal of the mark it is on. -/
def Spares (b : Vbuffer) (pos it : Iterator) : CutCall → Prop
  | split => b.NotPast (b.offsetOf pos) it
  | mark _ => b.NotPast (b.offsetOf pos) it
  | unmark => it.chunk = pos.chunk → ∀ c ∈ b.body, c.id = pos.chunk → c.data.isMark = false
  | sub len => b.NotPast (min (b.offsetOf pos + len) (totalSize b.body)) it

instance (b : Vbuffer) (pos it : Iterator) (call : CutCall) : Decidable (call.Spares b pos it) :=
  match call with
  | split => inferInstanceAs (Decidable (b.NotPast _ it))
  | mark _ => inferInstanceAs (Decidable (b.NotPast _ it))
  | unmark => inferInstanceAs (Decidable (_ → _))
  | sub _ => inferInstanceAs (Decidable (b.NotPast _ it))

end CutCall

def Vbuffer.MarksCtl (b : Vbuffer) : Prop := ∀ c ∈ b.body, c.data.isMark = true → c.flags.ctl = true

instance (b : Vbuffer) : Decidable b.MarksCtl :=
  inferInstanceAs (Decidable (∀ c ∈ b.body, c.data.isMark = true → c.flags.ctl = true))

/-- What a call does to the bytes of a buffer and to another iterator. -/
structure Spared (h : Heap) (b : Vbuffer) (spares : Iterator → Prop) (h' : Heap) (b' : Vbuffer) :
    Prop where
  content : b'.content h' = b.content h
  inRange : ∀ it, b.InRange it → (b'.InRange it ↔ spares it)
  offset : ∀ it, b.InRange it → spares it → b'.offsetOf it = b.offsetOf it

section Calls

variable {h h' : Heap} {b : Vbuffer} {pos : Iterator}

theorem spared_of_split {p i : ℕ} {k : Cut} (hb : b.WF h)
    (hsplit : _vbufferIteratorSplit h b pos false = (h', some k)) (hs : SplitAt h b p i h' k) :
    Spared h b (b.NotPast p) h' k.toVbuffer :=
  ⟨hs.content, fun _ hit => split_inRange_iff hb hsplit hs hit,
    fun _ hit _ => hs.offsetOf hb (mem_ids_of_check hit.check)⟩

theorem split_spared (hb : b.WF h) (hr : b.InRange pos) :
    Spared h b (b.NotPast (b.offsetOf pos)) (vbufferIteratorSplit h b pos).1
      (vbufferIteratorSplit h b pos).2.1 := by
  obtain ⟨h', k, hsplit, hs⟩ := split_spec hb hr (nofun : false = true → _)
  have heq : vbufferIteratorSplit h b pos =
      (h', k.toVbuffer, vbufferIteratorUpdate pos k.chunk.id 0, true) := by
    simp only [vbufferIteratorSplit, hr.check, if_true, hsplit]
  rw [heq]
  exact spared_of_split hb hsplit hs

theorem sub_spared (hb : b.WF h) (hr : b.InRange pos) (len : ℕ) :
    Spared h b (b.NotPast (min (b.offsetOf pos + len) (totalSize b.body)))
      (vbufferIteratorSub h b pos len true).1 (vbufferIteratorSub h b pos len true).2.1 := by
  obtain ⟨hto, hlen⟩ := advance_to len hb hr
  obtain ⟨h', k, hsplit, hs⟩ := split_spec hb hto.inRange (nofun : false = true → _)
  rw [hto.offset] at hs
  have heq : ∃ moved sub, vbufferIteratorSub h b pos len true = (h', k.toVbuffer, moved, sub) := by
    unfold vbufferIteratorSub
    rw [← Prod.mk.eta (p := vbufferIteratorAdvance b pos len), hlen]
    simp only [hr.check, Bool.not_true, Bool.false_eq_true, if_false, if_true, hsplit]
    exact ⟨_, _, rfl⟩
  obtain ⟨moved, sub, heq⟩ := heq
  rw [heq]
  exact spared_of_split hb hsplit hs

theorem mark_spared (hb : b.WF h) (hr : b.InRange pos) (readonly : Bool) :
    Spared h b (b.NotPast (b.offsetOf pos)) (vbufferIteratorMark h b pos readonly).1
      (vbufferIteratorMark h b pos readonly).2.1 := by
  obtain ⟨h', k, hsplit, hs⟩ := split_spec hb hr (nofun : false = true → _)
  obtain ⟨hcontent, hinRange, hoffset⟩ := spared_of_split hb hsplit hs
  let node : Chunk := ⟨h'.next + 1, ⟨false, false, k.chunk.flags.writable, true⟩,
    .mark h'.next readonly, 0, 0⟩
  have heq : vbufferIteratorMark h b pos readonly =
      (⟨h'.next + 1 + 1, h'.mem⟩, ⟨k.before ++ node :: k.after, k.last⟩,
        vbufferIteratorUpdate pos (h'.next + 1) 0, true) := by
    simp only [vbufferIteratorMark, hr.check, if_true, hsplit, vbufferChunkInsertCtl, Cut.insert,
      append_assoc, cons_append, nil_append]
    rfl
  rw [heq]
  have hnode : ∀ {it : Iterator}, b.InRange it → it.chunk ≠ node.id := by
    intro it hit
    obtain ⟨c, hc, hid⟩ := (mem_idsOf _).1 (mem_ids_of_check hit.check)
    have hlt := hb.fresh c hc
    have hnext := hs.next
    show it.chunk ≠ h'.next + 1
    omega
  refine ⟨?_, fun it hit => ?_, fun it hit hspare => ?_⟩
  · rw [← hcontent]
    have hempty : node.bytes h'.mem = [] := take_zero
    simp only [content, Cut.toVbuffer, bytesOf_append, bytesOf_cons, hempty, nil_append]
  · exact (inRange_insertCtl rfl (hnode hit)).2.trans (hinRange it hit)
  · exact (inRange_insertCtl rfl (hnode hit)).1.trans (hoffset it hit hspare)

theorem Spared.unchanged {spares : Iterator → Prop} (hspares : ∀ it, b.InRange it → spares it) :
    Spared h b spares h b :=
  ⟨rfl, fun it hit => ⟨fun _ => hspares it hit, fun _ => hit⟩, fun _ _ _ => rfl⟩

theorem unmark_spared (hb : b.WF h) (hmarks : b.MarksCtl) (hr : b.InRange pos) :
    Spared h b (fun it => CutCall.unmark.Spares b pos it) h (vbufferIteratorUnmark b pos).1 := by
  obtain ⟨body, e⟩ := b
  unfold vbufferIteratorUnmark
  rw [if_pos hr.check]
  by_cases hm : pos.chunk ∈ idsOf body
  · obtain ⟨A, c, B, rfl, hc, hA⟩ := exists_of_mem_ids hm
    have hseek : (mk (A ++ c :: B) e).seek pos.chunk = ⟨A, c :: B, e⟩ := by
      rw [← hc]
      exact seek_mk (by rwa [hc])
    have hone : ∀ d ∈ A ++ c :: B, d.id = pos.chunk → d = c := fun d hd hid =>
      inj_on_of_nodup_map hb.nodup_body hd (by simp) (hid.trans hc.symm)
    simp only [hseek]
    cases hmark : c.data.isMark with
    | false =>
      refine Spared.unchanged fun it _ _ d hd hid => ?_
      rw [hone d hd hid]
      exact hmark
    | true =>
      simp only [if_true]
      have hctl := hmarks c (by simp) hmark
      have hvalid := hb.valid_body c (by simp)
      have hsize := hvalid.ctlSize hctl
      -- The only chunk at the iterator is the mark, so an iterator is spared if it is elsewhere.
      have hspares : ∀ it, CutCall.unmark.Spares ⟨A ++ c :: B, e⟩ pos it ↔ it.chunk ≠ c.id := by
        intro it
        constructor
        · intro hspare hid
          have := hspare (hid.trans hc) c (by simp) hc
          rw [hmark] at this
          cases this
        · intro hne hid
          exact absurd (hid.trans hc.symm) hne
      refine ⟨?_, fun it hit => ?_, fun it hit hspare => ?_⟩
      · have hbytes : bytesOf h.mem (vbufferChunkRemoveCtl A c B e).after = bytesOf h.mem B :=
          Cut.mapChunk_bytes h.mem (remarks_orModified c) ⟨A, B, e⟩
        rw [content, Cut.toVbuffer, bytesOf_append, hbytes]
        simp [vbufferChunkRemoveCtl, content, hvalid.bytes_of_ctl hctl]
      · exact (inRange_removeCtl hsize hb.nodup hit).1.trans (hspares it).symm
      · exact (inRange_removeCtl hsize hb.nodup hit).2 ((hspares it).1 hspare)
  · have hseek : ((mk body e).seek pos.chunk).after = [] := dropWhile_id_absent hm
    simp only [hseek]
    refine Spared.unchanged fun it _ _ d hd hid => ?_
    exact absurd ((mem_idsOf _).2 ⟨d, hd, hid⟩) hm

end Calls

/-- The bytes of a buffer and all iterators of a set are as before, and the iterators usable. -/
structure Transparent (h : Heap) (b : Vbuffer) (others : Set Iterator) (r : Heap × Vbuffer) :
    Prop where
  content : r.2.content r.1 = b.content h
  usable : ∀ it ∈ others, r.2.InRange it
  offset : ∀ it ∈ others, r.2.offsetOf it = b.offsetOf it

theorem CutCall.spared {h : Heap} {b : Vbuffer} {pos : Iterator} (call : CutCall) (hb : b.WF h)
    (hmarks : b.MarksCtl) (hr : b.InRange pos) :
    Spared h b (fun it => call.Spares b pos it) (call.run h b pos).1 (call.run h b pos).2 := by
  cases call with
  | split => exact split_spared hb hr
  | mark readonly => exact mark_spared hb hr readonly
  | unmark => exact unmark_spared hb hmarks hr
  | sub len => exact sub_spared hb hr len

/-- **Cuts and marks.** A call never changes the bytes, and it leaves all other iterators usable
and where they were exactly if it spares each of them. -/
theorem transparent_iff {h : Heap} {b : Vbuffer} {pos : Iterator} (call : CutCall)
    (others : Set Iterator) (hb : b.WF h) (hmarks : b.MarksCtl) (hr : b.InRange pos)
    (hothers : ∀ it ∈ others, b.InRange it) :
    Transparent h b others (call.run h b pos) ↔ ∀ it ∈ others, call.Spares b pos it := by
  obtain ⟨hcontent, hinRange, hoffset⟩ := call.spared hb hmarks hr
  constructor
  · intro ht it hit
    exact (hinRange it (hothers it hit)).1 (ht.usable it hit)
  · intro hspares
    exact ⟨hcontent, fun it hit => (hinRange it (hothers it hit)).2 (hspares it hit),
      fun it hit => hoffset it (hothers it hit) (hspares it hit)⟩

/-- A registered iterator in the first chunk of `hello`, which holds `hel`. -/
def registeredAt (offset : ℕ) : Iterator := ⟨3, offset, 0, true⟩

theorem transparent_hello :
    Transparent helloHeap helloBuffer {registeredAt 1, vbufferIteratorCopy (registeredAt 4)}
      ((CutCall.mark true).run helloHeap helloBuffer (registeredAt 2)) :=
  (transparent_iff (.mark true) _ helloBuffer_wf (by decide) (by decide)
    (by rintro it (rfl | rfl) <;> decide)).2 (by rintro it (rfl | rfl) <;> decide)

/-- A mark behind `he` makes a registered iterator behind `hel` unusable, and so does its removal
for an iterator on it. -/
theorem mark_strands_iterator :
    helloBuffer.WF helloHeap ∧ helloBuffer.MarksCtl ∧ helloBuffer.InRange (registeredAt 2) ∧
      helloBuffer.InRange (registeredAt 3) ∧
      (let r := vbufferIteratorMark helloHeap helloBuffer (registeredAt 2) true
       r.2.2.2 = true ∧ _vbufferIteratorCheck r.2.1 (registeredAt 3) = false ∧
         r.2.1.InRange r.2.2.1 ∧ (vbufferIteratorUnmark r.2.1 r.2.2.1).2.2 = true ∧
         _vbufferIteratorCheck (vbufferIteratorUnmark r.2.1 r.2.2.1).1 r.2.2.1 = false) := by
  decide

end Haka
