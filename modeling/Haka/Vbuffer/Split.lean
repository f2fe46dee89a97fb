import Haka.Vbuffer.Sub

/-!
# Positions and splits

The logical position of an iterator is the number of bytes before it (`Vbuffer.offsetOf`). Splitting
at an iterator yields a cut whose two sides hold the bytes before and after that position
(`split_spec`), keeps the items, and leaves the position of every other iterator unchanged.
-/

namespace Haka

open List Vbuffer

/-! ## Logical positions -/

def sizeBefore (l : List Chunk) (id : ℕ) : ℕ := totalSize (l.takeWhile fun c => c.id ≠ id)

variable {l r P Q M B : List Chunk} {id : ℕ} {b : Vbuffer} {h h' : Heap} {e c : Chunk}

theorem sizeBefore_append_of_mem (h : id ∈ idsOf l) : sizeBefore (l ++ r) id = sizeBefore l id := by
  obtain ⟨p, c, q, rfl, rfl, hp⟩ := exists_of_mem_ids h
  unfold sizeBefore
  rw [append_assoc, cons_append, takeWhile_id hp, takeWhile_id hp]

theorem sizeBefore_append_of_notMem (h : id ∉ idsOf l) :
    sizeBefore (l ++ r) id = totalSize l + sizeBefore r id := by
  induction l with
  | nil => simp
  | cons c l ih =>
    simp only [idsOf_cons, mem_cons, not_or] at h
    have ih := ih h.2
    unfold sizeBefore at ih ⊢
    rw [cons_append, takeWhile_cons_of_pos (by simpa using Ne.symm h.1), totalSize_cons, ih,
      totalSize_cons, Nat.add_assoc]

theorem sizeBefore_cons_self (c : Chunk) (l : List Chunk) : sizeBefore (c :: l) c.id = 0 := by
  simp [sizeBefore]

theorem sizeBefore_absent (h : id ∉ idsOf l) : sizeBefore l id = totalSize l := by
  unfold sizeBefore; rw [takeWhile_id_absent h]

def Vbuffer.offsetOf (b : Vbuffer) (pos : Iterator) : ℕ := sizeBefore b.body pos.chunk + pos.offset

def itemsBefore (l : List Chunk) (id : ℕ) : List Item := itemsOf (l.takeWhile fun c => c.id ≠ id)

def Vbuffer.index (b : Vbuffer) (pos : Iterator) : ℕ :=
  (itemsBefore b.body pos.chunk).length +
    afterBytes ((itemsOf b.body).drop (itemsBefore b.body pos.chunk).length) pos.offset

/-- An iterator the checks accept, at a position of the buffer. -/
structure Vbuffer.InRange (b : Vbuffer) (pos : Iterator) : Prop where
  check : _vbufferIteratorCheck b pos = true
  le : b.offsetOf pos ≤ totalSize b.body

instance (b : Vbuffer) (pos : Iterator) : Decidable (b.InRange pos) :=
  decidable_of_iff (_vbufferIteratorCheck b pos = true ∧ b.offsetOf pos ≤ totalSize b.body)
    ⟨fun h => ⟨h.1, h.2⟩, fun h => ⟨h.check, h.le⟩⟩

variable {pos : Iterator}

theorem mem_ids_of_check (h : _vbufferIteratorCheck b pos = true) : pos.chunk ∈ idsOf b.all := by
  unfold _vbufferIteratorCheck at h
  split at h
  · simp at h
  · next c hc =>
    have hm := mem_of_find?_eq_some hc
    have hp := find?_some hc
    exact (mem_idsOf _).2 ⟨c, hm, by simpa using hp⟩

@[simp] theorem offsetOf_copy (b : Vbuffer) (pos : Iterator) :
    b.offsetOf (vbufferIteratorCopy pos) = b.offsetOf pos := rfl

/-! ## Replacing a stretch of chunks -/

/-- Replacing the chunks `X` of a buffer by chunks `Y` that are new or come from `X` gives a
well-formed buffer. -/
theorem Vbuffer.WF.replace {X Y : List Chunk} {e' : Chunk}
    (hb : (Vbuffer.mk (P ++ X ++ Q) e).WF h) (hmem : h'.mem = h.mem) (hnext : h.next ≤ h'.next)
    (hY : (idsOf Y).Nodup) (hids : ∀ i ∈ idsOf Y, i ∈ idsOf X ∨
      i ∉ idsOf (Vbuffer.mk (P ++ X ++ Q) e).all ∧ i < h'.next) (hvalid : ∀ c ∈ Y, c.Valid h.mem)
    (he : e'.id = e.id) (hev : e'.Valid h.mem) (hec : e'.flags.ctl = true) : (Vbuffer.mk (P ++ Y ++ Q) e').WF h' := by
  have hnd := hb.nodup
  have hfresh := hb.fresh
  have hval := hb.valid
  simp only [all_mk, idsOf_append, idsOf_cons, idsOf_nil, append_assoc] at hnd hids
  simp only [all_mk, mem_append, mem_singleton] at hfresh hval
  have hYX : ∀ i ∈ idsOf Y, i ∉ idsOf P ∧ i ∉ idsOf Q ∧ i ≠ e.id := by
    intro i hi
    rcases hids i hi with hX | ⟨hn, -⟩
    · rw [nodup_append] at hnd
      obtain ⟨-, hnd', hPX⟩ := hnd
      rw [nodup_append] at hnd'
      obtain ⟨-, -, hXQ⟩ := hnd'
      refine ⟨fun hP => hPX i hP i (by simp [hX]) rfl, fun hQ => hXQ i hX i (by simp [hQ]) rfl,
        fun hE => hXQ i hX i (by simp [hE]) rfl⟩
    · simp only [mem_append, mem_singleton, not_or] at hn
      exact ⟨hn.1, hn.2.2.1, hn.2.2.2⟩
  refine ⟨?_, ?_, ?_, hec⟩
  · simp only [all_mk, idsOf_append, idsOf_cons, idsOf_nil, append_assoc, he]
    rw [nodup_append] at hnd ⊢
    obtain ⟨hP, hnd', hPX⟩ := hnd
    rw [nodup_append] at hnd'
    obtain ⟨-, hQE, hXQ⟩ := hnd'
    refine ⟨hP, ?_, ?_⟩
    · rw [nodup_append]
      refine ⟨hY, hQE, fun i hi j hj hij => ?_⟩
      subst hij
      obtain ⟨-, hQ, hE⟩ := hYX i hi
      simp only [mem_append, mem_singleton] at hj
      exact hj.elim hQ hE
    · intro i hi j hj hij
      subst hij
      simp only [mem_append] at hj
      rcases hj with hj | hj
      · exact (hYX i hj).1 hi
      · exact hPX i hi i (by simp only [mem_append]; exact .inr hj) rfl
  · intro c hc
    simp only [all_mk, mem_append, mem_singleton] at hc
    rcases hc with ((hc | hc) | hc) | rfl
    · exact lt_of_lt_of_le (hfresh c (by tauto)) hnext
    · rcases hids c.id ((mem_idsOf _).2 ⟨c, hc, rfl⟩) with hX | ⟨-, hlt⟩
      · obtain ⟨x, hx, hxc⟩ := (mem_idsOf _).1 hX
        rw [← hxc]
        exact lt_of_lt_of_le (hfresh x (by tauto)) hnext
      · exact hlt
    · exact lt_of_lt_of_le (hfresh c (by tauto)) hnext
    · rw [he]; exact lt_of_lt_of_le (hfresh e (by tauto)) hnext
  · intro c hc
    simp only [all_mk, mem_append, mem_singleton] at hc
    rw [hmem]
    rcases hc with ((hc | hc) | hc) | rfl
    · exact hval c (by tauto)
    · exact hvalid c hc
    · exact hval c (by tauto)
    · exact hev

/-- Replacing a stretch by one with the same items that starts at the same chunk keeps the items
before every other chunk. -/
theorem itemsBefore_replace {X Y : List Chunk} (hitems : itemsOf Y = itemsOf X)
    (hid : id ∈ idsOf X ∨ id ∈ idsOf Y → ∃ x X' y Y', X = x :: X' ∧ Y = y :: Y' ∧
      x.id = id ∧ y.id = id) :
    itemsBefore (P ++ Y ++ Q) id = itemsBefore (P ++ X ++ Q) id := by
  unfold itemsBefore
  by_cases hP : id ∈ idsOf P
  · obtain ⟨p, c, q, rfl, rfl, hp⟩ := exists_of_mem_ids hP
    simp only [append_assoc, cons_append]
    rw [takeWhile_id hp, takeWhile_id hp]
  by_cases hXY : id ∈ idsOf X ∨ id ∈ idsOf Y
  · obtain ⟨x, X', y, Y', rfl, rfl, hx, hy⟩ := hid hXY
    simp only [append_assoc, cons_append]
    have hPx : (P ++ x :: (X' ++ Q)).takeWhile (fun c => c.id ≠ id) = P := by
      rw [← hx] at hP ⊢
      exact takeWhile_id hP
    have hPy : (P ++ y :: (Y' ++ Q)).takeWhile (fun c => c.id ≠ id) = P := by
      rw [← hy] at hP ⊢
      exact takeWhile_id hP
    rw [hPx, hPy]
  · rw [not_or] at hXY
    have hskip : ∀ {l : List Chunk}, id ∉ idsOf l → (l ++ Q).takeWhile (fun c => c.id ≠ id) =
        l ++ Q.takeWhile fun c => c.id ≠ id := by
      intro l hl
      refine takeWhile_append_of_pos fun c hc => ?_
      simp only [ne_eq, decide_not, Bool.not_eq_eq_eq_not, Bool.not_true, decide_eq_false_iff_not]
      exact fun he => hl ((mem_idsOf l).2 ⟨c, hc, he⟩)
    rw [hskip (by rw [idsOf_append, mem_append]; tauto),
      hskip (by rw [idsOf_append, mem_append]; tauto)]
    simp only [itemsOf_append, hitems]

/-! ## The walk of `_vbuffer_iterator_fix` -/

variable {offset : ℕ}

theorem fixLoop_append (before B : List Chunk) (hM : M ≠ [])
    (ho : offset ≤ totalSize M) (hv : ∀ c ∈ M, c.flags.ctl = true → c.size = 0) :
    ∃ m c Q off, M = m ++ c :: Q ∧
      fixLoop before (M ++ B) offset = ((before ++ m, c :: Q ++ B), off) ∧ off ≤ c.size ∧
      totalSize m + off = offset ∧
      afterBytes (itemsOf (M ++ B)) offset = (itemsOf m).length + off := by
  induction M generalizing before offset with
  | nil => exact absurd rfl hM
  | cons x M ih =>
    rw [totalSize_cons] at ho
    by_cases hx : offset > x.size
    · have hM' : M ≠ [] := by
        rintro rfl
        rw [totalSize_nil] at ho
        omega
      obtain ⟨m, c, Q, off, rfl, hfix, hle, hoff, hitems⟩ :=
        ih (before ++ [x]) hM' (show offset - x.size ≤ totalSize M by omega)
          fun d hd => hv d (by simp [hd])
      refine ⟨x :: m, c, Q, off, rfl, ?_, hle, ?_, ?_⟩
      · rw [cons_append, fixLoop, if_pos hx, hfix, append_assoc, singleton_append]
      · rw [totalSize_cons]
        omega
      · rw [cons_append, itemsOf_cons, afterBytes_pass _ (hv x (by simp)) hx, hitems,
          itemsOf_cons, length_append, Nat.add_assoc]
    · refine ⟨[], x, M, offset, rfl, ?_, by omega, by simp, ?_⟩
      · rw [cons_append, fixLoop, if_neg hx, append_nil]
      · rw [cons_append, itemsOf_cons, afterBytes_stop _ (hv x (by simp)) (by omega)]
        simp

/-- The position of an iterator whose chunk starts the stretch `c :: M`, long enough for its
offset, is found in that stretch. -/
theorem fix_append (hc : c.id = pos.chunk) (hP : c.id ∉ idsOf P)
    (ho : pos.offset ≤ totalSize (c :: M)) (hv : ∀ d ∈ c :: M, d.flags.ctl = true → d.size = 0) :
    ∃ m d Q off, c :: M = m ++ d :: Q ∧
      _vbufferIteratorFix ⟨P ++ c :: M ++ B, e⟩ pos = (⟨P ++ m, d :: Q ++ B, e⟩, off) ∧
      off ≤ d.size ∧ totalSize m + off = pos.offset ∧
      afterBytes (itemsOf (c :: M ++ B)) pos.offset = (itemsOf m).length + off := by
  have hseek : (Vbuffer.mk (P ++ c :: M ++ B) e).seek pos.chunk = ⟨P, c :: M ++ B, e⟩ := by
    rw [append_assoc, cons_append, ← hc, seek_mk hP]
  unfold _vbufferIteratorFix
  rw [hseek]
  by_cases hgt : pos.offset > c.size
  · obtain ⟨m, d, Q, off, hM, hfix, hle, hoff, hitems⟩ :=
      fixLoop_append P B (cons_ne_nil c M) ho hv
    refine ⟨m, d, Q, off, hM, ?_, hle, hoff, hitems⟩
    have hchunk : (Cut.mk P (c :: M ++ B) e).chunk.size = c.size := rfl
    simp only [hchunk, hgt, if_true, hfix]
  · refine ⟨[], c, M, pos.offset, rfl, ?_, by omega, by simp, ?_⟩
    · have hchunk : (Cut.mk P (c :: M ++ B) e).chunk.size = c.size := rfl
      simp only [hchunk, hgt, if_false, append_nil]
    · rw [cons_append, itemsOf_cons, afterBytes_stop _ (hv c (by simp)) (by omega)]
      simp

theorem fix_last (hl : b.last.id ∉ idsOf b.body) (hc : pos.chunk = b.last.id)
    (ho : pos.offset = 0) :
    _vbufferIteratorFix b pos = (⟨b.body, [], b.last⟩, 0) := by
  have hseek : b.seek pos.chunk = ⟨b.body, [], b.last⟩ := by
    unfold seek
    rw [hc, takeWhile_id_absent hl, dropWhile_id_absent hl]
  unfold _vbufferIteratorFix
  rw [hseek, ho]
  simp

/-! ## Splitting one chunk -/

/-- `l` and `r` are what a split of `c` at `off` puts before and from the position on. -/
structure IsSplit (h : Heap) (c : Chunk) (off : ℕ) (h' : Heap) (l r : List Chunk) : Prop where
  mem : h'.mem = h.mem
  next : h.next ≤ h'.next
  bytesL : bytesOf h.mem l = (c.bytes h.mem).take off
  bytesR : bytesOf h.mem r = (c.bytes h.mem).drop off
  sizeL : totalSize l = off
  sizeR : totalSize r = c.size - off
  head : ∃ y Y, l ++ r = y :: Y ∧ y.id = c.id
  nodup : (idsOf (l ++ r)).Nodup
  ids : ∀ i ∈ idsOf (l ++ r), i = c.id ∨ h.next ≤ i ∧ i < h'.next
  valid : ∀ x ∈ l ++ r, x.Valid h.mem
  flags : ∀ x ∈ l ++ r, x.flags = c.flags ∧ x.data = c.data
  itemsL : itemsOf l = c.items.take off
  itemsR : itemsOf r = c.items.drop off

variable {off : ℕ}

theorem splitChunk_spec (hc : c.Valid h.mem) (hid : c.id < h.next) (ho : off ≤ c.size) :
    IsSplit h c off (splitChunk h c off).1 (splitChunk h c off).2.1 (splitChunk h c off).2.2 := by
  unfold splitChunk
  by_cases h0 : off = 0
  · subst h0
    exact ⟨rfl, le_refl _, by simp, by simp, rfl, by simp, ⟨c, [], rfl, rfl⟩, by simp,
      by simp, by simpa using hc, by simp, by simp, by simp⟩
  have hctl : c.flags.ctl = false := by
    by_contra hne
    have := hc.ctlSize (by simpa using hne)
    omega
  have hitems : c.items = replicate c.size .byte := by
    unfold Chunk.items
    rw [hctl, if_neg (by simp), if_neg (by omega)]
  rw [if_neg h0]
  by_cases hs : off = c.size
  · rw [if_pos hs]
    have hlen := hc.inBlock
    refine ⟨rfl, le_refl _, ?_, ?_, by simp [hs], by simp [hs], ⟨c, [], rfl, rfl⟩, by simp,
      by simp, by simpa using hc, by simp, by simp [hitems, hs], by simp [hitems, hs]⟩
    · rw [hs, ← hlen, take_length]; simp
    · rw [hs, ← hlen, drop_length]; simp
  · rw [if_neg hs]
    refine ⟨rfl, Nat.le_succ _, ?_, ?_, ?_, ?_, ⟨c.left off, [c.right off h.next], rfl, rfl⟩, ?_, ?_,
      ?_, ?_, ?_, ?_⟩
    · simp [Chunk.bytes_left _ ho]
    · simp [Chunk.bytes_right]
    · simp [Chunk.left]
    · simp [Chunk.right]
    · have hne : c.id ≠ h.next := by omega
      simpa [Chunk.left, Chunk.right] using hne
    · simp [Chunk.left, Chunk.right]
    · intro x hx
      rcases mem_append.1 hx with hx | hx
      · rw [mem_singleton.1 hx]; exact hc.left ho
      · rw [mem_singleton.1 hx]; exact hc.right off h.next
    · simp [Chunk.left, Chunk.right]
    · simp only [itemsOf_cons, itemsOf_nil, append_nil, hitems, take_replicate, Nat.min_eq_left ho]
      simp [Chunk.items, Chunk.left, hctl, h0]
    · simp only [itemsOf_cons, itemsOf_nil, append_nil, hitems, drop_replicate]
      have : c.size - off ≠ 0 := by omega
      simp [Chunk.items, Chunk.right, hctl, this]

/-! ## Splitting a buffer -/

theorem split_append (mark : Bool) (hc : c.id = pos.chunk) (hP : c.id ∉ idsOf P)
    (ho : pos.offset ≤ totalSize (c :: M)) (hv : ∀ d ∈ c :: M, d.flags.ctl = true → d.size = 0) :
    ∃ m d Q off, c :: M = m ++ d :: Q ∧ off ≤ d.size ∧ totalSize m + off = pos.offset ∧
      afterBytes (itemsOf (c :: M ++ B)) pos.offset = (itemsOf m).length + off ∧
      _vbufferIteratorSplit h ⟨P ++ c :: M ++ B, e⟩ pos mark =
        if mark && !d.flags.writable then (h, none)
        else ((splitChunk h (d.markIf mark) off).1,
          some ⟨P ++ m ++ (splitChunk h (d.markIf mark) off).2.1,
            (splitChunk h (d.markIf mark) off).2.2 ++ (Q ++ B), e⟩) := by
  obtain ⟨m, d, Q, off, hM, hfix, hle, hoff, hitems⟩ := fix_append hc hP ho hv
  refine ⟨m, d, Q, off, hM, hle, hoff, hitems, ?_⟩
  unfold _vbufferIteratorSplit
  rw [hfix]
  rfl

theorem split_last (mark : Bool) (hl : b.last.id ∉ idsOf b.body)
    (hc : pos.chunk = b.last.id) (ho : pos.offset = 0) :
    _vbufferIteratorSplit h b pos mark = if mark && !b.last.flags.writable then (h, none)
      else (h, some ⟨b.body, [], b.last.markIf mark⟩) := by
  unfold _vbufferIteratorSplit
  rw [fix_last hl hc ho]
  rfl

/-- `k` is the buffer `b` cut at the logical position `p`, after `i` items. -/
structure SplitAt (h : Heap) (b : Vbuffer) (p i : ℕ) (h' : Heap) (k : Cut) : Prop where
  mem : h'.mem = h.mem
  next : h.next ≤ h'.next
  wf : k.toVbuffer.WF h'
  before : bytesOf h.mem k.before = (b.content h).take p
  after : bytesOf h.mem k.after = (b.content h).drop p
  size : totalSize k.before = p
  itemsBefore : itemsOf k.before = (itemsOf b.body).take i
  itemsAfter : itemsOf k.after = (itemsOf b.body).drop i
  indexLe : i ≤ (itemsOf b.body).length
  writable : b.Writable → k.toVbuffer.Writable
  last : k.last.id = b.last.id
  ids : idsOf b.all ⊆ idsOf k.toVbuffer.all
  news : ∀ i ∈ idsOf k.toVbuffer.all, i ∈ idsOf b.all ∨ h.next ≤ i
  starts : ∀ i ∈ idsOf b.all, Haka.itemsBefore k.toVbuffer.body i = Haka.itemsBefore b.body i

variable {α : Type*} {k : ℕ}

theorem take_middle {x y z : List α} (hk : k ≤ y.length) :
    (x ++ (y ++ z)).take (x.length + k) = x ++ y.take k := by
  rw [take_length_add_append, take_append_of_le_length hk]

theorem drop_middle {x y z : List α} (hk : k ≤ y.length) :
    (x ++ (y ++ z)).drop (x.length + k) = y.drop k ++ z := by
  rw [drop_length_add_append, drop_append_of_le_length hk]

/-- Putting the two parts of a chunk in its place cuts the buffer there. -/
theorem splitAt_of_isSplit {d : Chunk} (mark : Bool) (hb : b.WF h)
    (hbody : b.body = P ++ d :: Q) (ho : off ≤ d.size) (hs : IsSplit h (d.markIf mark) off h' l r) :
    SplitAt h b (totalSize P + off) ((itemsOf P).length + off) h' ⟨P ++ l, r ++ Q, b.last⟩ := by
  obtain ⟨body, e⟩ := b
  subst hbody
  have hval : ∀ c ∈ P ++ d :: Q, c.Valid h.mem := hb.valid_body
  have hlenP : (bytesOf h.mem P).length = totalSize P :=
    length_bytesOf fun c hc => hval c (by simp [hc])
  have hlend : (d.bytes h.mem).length = d.size := (hval d (by simp)).inBlock
  have hcontent : (Vbuffer.mk (P ++ d :: Q) e).content h =
      bytesOf h.mem P ++ (d.bytes h.mem ++ bytesOf h.mem Q) := by
    simp [content]
  have hbytesL := hs.bytesL
  have hbytesR := hs.bytesR
  rw [Chunk.bytes_markIf] at hbytesL hbytesR
  have heq : Cut.toVbuffer ⟨P ++ l, r ++ Q, e⟩ = ⟨P ++ (l ++ r) ++ Q, e⟩ := by
    simp [Cut.toVbuffer]
  have hX : Vbuffer.mk (P ++ d :: Q) e = ⟨P ++ [d] ++ Q, e⟩ := by simp
  have hlenI : off ≤ d.items.length :=
    ho.trans (d.size_le_items (hval d (by simp)).ctlSize)
  have hitemsL := hs.itemsL
  have hitemsR := hs.itemsR
  rw [Chunk.items_markIf] at hitemsL hitemsR
  refine ⟨hs.mem, hs.next, ?_, ?_, ?_, ?_, ?_, ?_, ?_, ?_, rfl, ?_, ?_, ?_⟩
  · rw [heq]
    rw [hX] at hb
    refine hb.replace hs.mem hs.next hs.nodup (fun i hi => ?_) hs.valid rfl
      (hb.valid e (by simp)) hb.lastCtl
    rcases hs.ids i hi with he | ⟨hge, hlt⟩
    · left; rw [he]; simp
    · right
      refine ⟨fun hm => ?_, hlt⟩
      obtain ⟨x, hx, hxi⟩ := (mem_idsOf _).1 hm
      have := hb.fresh x hx
      omega
  · rw [hcontent, ← hlenP, take_middle (by omega), bytesOf_append, hbytesL]
  · rw [hcontent, ← hlenP, drop_middle (by omega), bytesOf_append, hbytesR]
  · rw [totalSize_append, hs.sizeL]
  · rw [itemsOf_append, itemsOf_append, itemsOf_cons, take_middle hlenI, hitemsL]
  · rw [itemsOf_append, itemsOf_append, itemsOf_cons, drop_middle hlenI, hitemsR]
  · simp only [itemsOf_append, itemsOf_cons, length_append]
    omega
  · intro hw x hx
    rw [heq, all_mk] at hx
    simp only [mem_append, mem_singleton] at hx
    rcases hx with ((hx | hx) | hx) | rfl
    · exact hw x (by simp [hx])
    · rw [(hs.flags x (by simpa using hx)).1, Chunk.markIf_writable]
      exact hw d (by simp)
    · exact hw x (by simp [hx])
    · exact hw x (by simp)
  · obtain ⟨y, Y, hlr, hy⟩ := hs.head
    rw [heq, hlr]
    intro i hi
    simp only [all_mk, idsOf_append, idsOf_cons, idsOf_nil, mem_append, mem_cons,
      Chunk.markIf_id] at hi hy ⊢
    rw [hy]
    tauto
  · intro i hi
    rw [heq] at hi
    have hids : idsOf (Vbuffer.mk (P ++ (l ++ r) ++ Q) e).all =
        idsOf P ++ idsOf (l ++ r) ++ idsOf Q ++ [e.id] := by simp
    rw [hids, mem_append, mem_append, mem_append] at hi
    rcases hi with ((hi | hi) | hi) | hi
    · left; simp [hi]
    · rcases hs.ids i hi with he | ⟨hge, -⟩
      · left; simp [he]
      · exact .inr hge
    · left; simp [hi]
    · left; simpa using Or.inr (Or.inr (Or.inr hi))
  · intro i _
    rw [heq, hX]
    apply itemsBefore_replace
    · rw [itemsOf_append, hitemsL, hitemsR, take_append_drop, itemsOf_cons, itemsOf_nil, append_nil]
    · intro hor
      obtain ⟨y, Y, hlr, hy⟩ := hs.head
      rw [Chunk.markIf_id] at hy
      refine ⟨d, [], y, Y, rfl, hlr, ?_⟩
      have hid : i = d.id := by
        rcases hor with hi | hi
        · simpa using hi
        · rcases hs.ids i hi with he | ⟨hge, -⟩
          · rwa [Chunk.markIf_id] at he
          · -- a new address is not that of a chunk of the buffer
            rename_i hmem
            obtain ⟨x, hx, hxi⟩ := (mem_idsOf _).1 hmem
            have := hb.fresh x hx
            omega
      exact ⟨hid.symm, by rw [hy, hid]⟩

theorem splitAt_end (mark : Bool) (hb : b.WF h) :
    SplitAt h b (totalSize b.body) (itemsOf b.body).length h ⟨b.body, [], b.last.markIf mark⟩ := by
  obtain ⟨body, e⟩ := b
  have hlen := hb.length_content
  have heq : Cut.toVbuffer ⟨body, [], e.markIf mark⟩ = ⟨body ++ [] ++ [], e.markIf mark⟩ := by
    simp [Cut.toVbuffer]
  refine ⟨rfl, le_refl _, ?_, ?_, ?_, rfl, by simp, by simp, le_refl _, ?_,
    Chunk.markIf_id _ _, ?_, ?_, ?_⟩
  · rw [heq]
    have hb' : (Vbuffer.mk (body ++ [] ++ []) e).WF h := by simpa using hb
    exact hb'.replace rfl (le_refl _) (by simp) (by simp) (by simp) (Chunk.markIf_id _ _)
      ((hb.valid e (by simp)).markIf mark) (by rw [Chunk.markIf_ctl]; exact hb.lastCtl)
  · rw [← hlen, take_length]; rfl
  · rw [← hlen, drop_length]; rfl
  · intro hwr x hx
    rw [heq, all_mk] at hx
    simp only [append_nil, mem_append, mem_singleton] at hx
    rcases hx with hx | rfl
    · exact hwr x (by simp [hx])
    · rw [Chunk.markIf_writable]; exact hwr e (by simp)
  · rw [heq]; simp
  · intro i hi
    rw [heq] at hi
    left; simpa using hi
  · intro i _; rw [heq]; simp

variable {mark : Bool}

theorem not_writable_of_readonly (hc : c ∈ b.all)
    (hr : (mark && !c.flags.writable) = true) : ¬(mark = true → b.Writable) := by
  intro hw
  cases mark with
  | false => simp at hr
  | true => simp [hw rfl c hc] at hr

/-- A split whose position is found in the stretch `c :: M` leaves the chunks `B` after it alone. -/
theorem split_stretch (mark : Bool) (hb : (Vbuffer.mk (P ++ c :: M ++ B) e).WF h)
    (hc : c.id = pos.chunk) (hP : c.id ∉ idsOf P) (ho : pos.offset ≤ totalSize (c :: M)) :
    ∃ m d Q off, c :: M = m ++ d :: Q ∧ totalSize m + off = pos.offset ∧
      _vbufferIteratorSplit h ⟨P ++ c :: M ++ B, e⟩ pos mark =
        (if mark && !d.flags.writable then (h, none)
        else ((splitChunk h (d.markIf mark) off).1,
          some ⟨P ++ m ++ (splitChunk h (d.markIf mark) off).2.1,
            (splitChunk h (d.markIf mark) off).2.2 ++ (Q ++ B), e⟩)) ∧
      IsSplit h (d.markIf mark) off (splitChunk h (d.markIf mark) off).1
        (splitChunk h (d.markIf mark) off).2.1 (splitChunk h (d.markIf mark) off).2.2 ∧
      SplitAt h ⟨P ++ c :: M ++ B, e⟩ (totalSize P + pos.offset)
        ((itemsOf P).length + afterBytes (itemsOf (c :: M ++ B)) pos.offset)
        (splitChunk h (d.markIf mark) off).1
        ⟨P ++ m ++ (splitChunk h (d.markIf mark) off).2.1,
            (splitChunk h (d.markIf mark) off).2.2 ++ (Q ++ B), e⟩ := by
  obtain ⟨m, d, Q, off, hM, hoff, hpos, hitems, hsplit⟩ :=
    split_append mark hc hP ho
      fun d hd => (hb.valid d (mem_append_left _ (mem_append_left _
        (mem_append_right _ hd)))).ctlSize
  have hd : d ∈ (Vbuffer.mk (P ++ c :: M ++ B) e).all := by simp [hM]
  have hs := splitChunk_spec ((hb.valid d hd).markIf mark) (by simpa using hb.fresh d hd)
    (by simpa using hoff)
  refine ⟨m, d, Q, off, hM, hpos, hsplit, hs, ?_⟩
  have hp : totalSize P + pos.offset = totalSize (P ++ m) + off := by
    rw [totalSize_append]
    omega
  have hi : (itemsOf P).length + afterBytes (itemsOf (c :: M ++ B)) pos.offset =
      (itemsOf (P ++ m)).length + off := by
    rw [hitems, itemsOf_append, length_append, Nat.add_assoc]
  rw [hp, hi]
  exact splitAt_of_isSplit mark hb (by simp [hM]) hoff hs

theorem sizeBefore_middle {i : ℕ} (hc : c.id = i) (hP : i ∉ idsOf P) :
    sizeBefore (P ++ c :: M) i = totalSize P := by
  rw [sizeBefore_append_of_notMem hP, ← hc, sizeBefore_cons_self, Nat.add_zero]

theorem itemsBefore_middle {i : ℕ} (hc : c.id = i) (hP : i ∉ idsOf P) : itemsBefore (P ++ c :: M) i = itemsOf P := by
  unfold itemsBefore
  rw [← hc] at hP ⊢
  rw [takeWhile_id hP]

theorem index_middle (hc : c.id = pos.chunk) (hP : pos.chunk ∉ idsOf P) :
    (Vbuffer.mk (P ++ c :: M) e).index pos =
      (itemsOf P).length + afterBytes (itemsOf (c :: M)) pos.offset := by
  unfold index
  simp only [itemsBefore_middle hc hP, itemsOf_append, drop_left]

theorem index_last (hl : pos.chunk ∉ idsOf b.body) : b.index pos = (itemsOf b.body).length := by
  unfold index itemsBefore
  rw [takeWhile_id_absent hl, drop_length]
  cases pos.offset <;> simp [afterBytes]

/-- **Splits.** At a position of the buffer, `_vbuffer_iterator_split` cuts the buffer at that
logical position, unless it has to mark a read-only chunk. -/
theorem split_cases (mark : Bool) (hb : b.WF h) (hr : b.InRange pos) :
    (_vbufferIteratorSplit h b pos mark = (h, none) ∧ ¬(mark = true → b.Writable)) ∨
    ∃ h' k, _vbufferIteratorSplit h b pos mark = (h', some k) ∧
      SplitAt h b (b.offsetOf pos) (b.index pos) h' k := by
  have hle := hr.le
  have hmem := mem_ids_of_check hr.check
  unfold offsetOf at hle ⊢
  obtain ⟨body, e⟩ := b
  rw [all_mk, idsOf_append, mem_append] at hmem
  rcases hmem with hm | hm
  · obtain ⟨P, c, M, rfl, hc, hP⟩ := exists_of_mem_ids hm
    rw [index_middle hc hP]
    simp only [sizeBefore_middle hc hP, totalSize_append] at hle ⊢
    have hB : P ++ c :: M = P ++ c :: M ++ [] := (append_nil _).symm
    rw [hB] at hb ⊢
    obtain ⟨m, d, Q, off, hM, -, hsplit, -, hat⟩ :=
      split_stretch mark hb hc (by rw [hc]; exact hP) (by omega)
    rw [append_nil (c :: M)] at hat
    by_cases hro : (mark && !d.flags.writable) = true
    · rw [if_pos hro] at hsplit
      exact .inl ⟨hsplit, not_writable_of_readonly (by simp [hM]) hro⟩
    · rw [if_neg hro] at hsplit
      exact .inr ⟨_, _, hsplit, hat⟩
  · simp only [idsOf_cons, idsOf_nil, mem_singleton] at hm
    have hl := hb.last_notMem
    rw [hm, sizeBefore_absent hl] at hle ⊢
    have ho : pos.offset = 0 := by
      omega
    have hsplit := split_last (h := h) mark hl hm ho
    rw [ho, index_last (by rw [hm]; exact hl)]
    by_cases hro : (mark && !e.flags.writable) = true
    · rw [if_pos hro] at hsplit
      exact .inl ⟨hsplit, not_writable_of_readonly (by simp) hro⟩
    · rw [if_neg hro] at hsplit
      exact .inr ⟨_, _, hsplit, splitAt_end mark hb⟩

theorem split_spec (hb : b.WF h) (hr : b.InRange pos) (hw : mark = true → b.Writable) :
    ∃ h' k, _vbufferIteratorSplit h b pos mark = (h', some k) ∧
      SplitAt h b (b.offsetOf pos) (b.index pos) h' k :=
  (split_cases mark hb hr).resolve_left fun hn => hn.2 hw

/-- The chunks a split that marks nothing replaces: none, or one data chunk by its two parts. -/
theorem split_parts (hb : b.WF h) (hr : b.InRange pos) : ∃ h' P X Q l r, b.body = P ++ X ++ Q ∧
      _vbufferIteratorSplit h b pos false = (h', some ⟨P ++ l, r ++ Q, b.last⟩) ∧
      h'.mem = h.mem ∧ h.next ≤ h'.next ∧ (Vbuffer.mk (P ++ l ++ (r ++ Q)) b.last).WF h' ∧
      bytesOf h.mem (l ++ r) = bytesOf h.mem X ∧ (∀ x ∈ X, x.flags.ctl = false) ∧
      ∀ x ∈ l ++ r, ∃ d ∈ X, x.flags = d.flags ∧ x.data = d.data := by
  have hle := hr.le
  have hmem := mem_ids_of_check hr.check
  unfold offsetOf at hle
  obtain ⟨body, e⟩ := b
  rw [all_mk, idsOf_append, mem_append] at hmem
  rcases hmem with hm | hm
  · obtain ⟨P, c, M, rfl, hc, hP⟩ := exists_of_mem_ids hm
    simp only [sizeBefore_middle hc hP, totalSize_append] at hle
    have hB : P ++ c :: M = P ++ c :: M ++ [] := (append_nil _).symm
    rw [hB] at hb ⊢
    obtain ⟨m, d, Q, off, hM, -, hsplit, hs, hat⟩ :=
      split_stretch false hb hc (by rw [hc]; exact hP) (by omega)
    simp only [Bool.false_and, Bool.false_eq_true, if_false, Chunk.markIf, append_nil]
      at hsplit hs hat ⊢
    by_cases hctl : d.flags.ctl = true
    · -- a control chunk has size 0, so that it is split at its start
      have hoff : off = 0 := by
        rw [← hs.sizeL]
        refine sum_eq_zero fun n hn => ?_
        obtain ⟨x, hx, rfl⟩ := mem_map.1 hn
        have hx' := mem_append_left (splitChunk h d off).2.2 hx
        exact (hs.valid x hx').ctlSize (by rw [(hs.flags x hx').1]; exact hctl)
      subst hoff
      refine ⟨h, P ++ m, [], d :: Q, [], [], by simp [hM], ?_, rfl, le_refl _, ?_, rfl, by simp,
        by simp⟩
      · simpa [splitChunk] using hsplit
      · simpa [splitChunk, Cut.toVbuffer] using hat.wf
    · refine ⟨_, P ++ m, [d], Q, _, _, by simp [hM], hsplit, hs.mem, hs.next, hat.wf, ?_, ?_, ?_⟩
      · rw [bytesOf_append, hs.bytesL, hs.bytesR, take_append_drop]
        simp
      · simpa using hctl
      · exact fun x hx => ⟨d, by simp, hs.flags x hx⟩
  · simp only [idsOf_cons, idsOf_nil, mem_singleton] at hm
    have hl := hb.last_notMem
    rw [hm, sizeBefore_absent hl] at hle
    have ho : pos.offset = 0 := by
      omega
    have hsplit := split_last (h := h) false hl hm ho
    refine ⟨h, body, [], [], [], [], by simp, ?_, rfl, le_refl _, by simpa using hb, rfl, by simp,
      by simp⟩
    simpa [Chunk.markIf] using hsplit

/-! ## Two positions -/

/-- The chunks an iterator may designate without being after `pos`: up to the one `pos` falls in,
and the next one when `pos` is at the end of a chunk with bytes. -/
def Vbuffer.reach (b : Vbuffer) (pos : Iterator) : List ℕ :=
  let (k, off) := _vbufferIteratorFix b pos
  idsOf k.before ++ k.chunk.id ::
    if 0 < off ∧ off = k.chunk.size then [(k.after.tail.headD k.last).id] else []

theorem fix_cut_last (b : Vbuffer) (pos : Iterator) : (_vbufferIteratorFix b pos).1.last = b.last := by
  unfold _vbufferIteratorFix
  dsimp only
  split <;> rfl

theorem fixLoop_body (before after : List Chunk) (offset : ℕ) :
    (fixLoop before after offset).1.1 ++ (fixLoop before after offset).1.2 = before ++ after := by
  induction after generalizing before offset with
  | nil => rfl
  | cons iter after ih =>
    rw [fixLoop]
    split_ifs
    · rw [ih]
      simp
    · rfl

theorem fix_body (b : Vbuffer) (pos : Iterator) :
    (_vbufferIteratorFix b pos).1.before ++ (_vbufferIteratorFix b pos).1.after = b.body := by
  have hseek : (b.seek pos.chunk).before ++ (b.seek pos.chunk).after = b.body :=
    takeWhile_append_dropWhile
  unfold _vbufferIteratorFix
  dsimp only
  split_ifs
  · exact (fixLoop_body ..).trans hseek
  · exact hseek

theorem fixLoop_inChunk {before after rest : List Chunk}
    (hc : (fixLoop before after offset).1.2 = c :: rest) :
    (fixLoop before after offset).2 ≤ c.size := by
  induction after generalizing before offset with
  | nil => simp [fixLoop] at hc
  | cons iter after ih =>
    rw [fixLoop] at hc ⊢
    split at hc
    case isTrue h =>
      rw [if_pos h]
      exact ih hc
    case isFalse h =>
      rw [if_neg h]
      obtain ⟨rfl, -⟩ := cons.inj hc
      exact not_lt.1 h

theorem fix_inChunk {rest : List Chunk}
    (hc : (_vbufferIteratorFix b pos).1.after = c :: rest) : (_vbufferIteratorFix b pos).2 ≤ c.size := by
  unfold _vbufferIteratorFix at hc ⊢
  dsimp only at hc ⊢
  split at hc
  case isTrue h =>
    rw [if_pos h]
    exact fixLoop_inChunk hc
  case isFalse h =>
    rw [if_neg h]
    have hchunk : (b.seek pos.chunk).chunk = c := by
      rw [Cut.chunk, hc]
      rfl
    rw [← hchunk]
    exact not_lt.1 h

theorem split_reach {k : Cut}
    (hsplit : _vbufferIteratorSplit h b pos mark = (h', some k)) (hl : b.last.size = 0) :
    ∀ i ∈ b.reach pos, i ∈ idsOf k.before ∨ i = k.chunk.id := by
  have hlast := fix_cut_last b pos
  unfold _vbufferIteratorSplit at hsplit
  unfold reach
  generalize _vbufferIteratorFix b pos = f at hlast hsplit ⊢
  obtain ⟨⟨P, A, e⟩, off⟩ := f
  obtain rfl : e = b.last := hlast
  simp only at hsplit ⊢
  split at hsplit
  · simp at hsplit
  intro i hi
  cases A with
  | nil =>
    obtain ⟨-, rfl⟩ := hsplit
    have hne : ¬(0 < off ∧ off = (Cut.mk P [] b.last).chunk.size) := by
      simp only [Cut.chunk, headD_nil, hl]
      omega
    rw [if_neg hne] at hi
    simpa [Cut.chunk] using hi
  | cons d Q =>
    obtain ⟨-, rfl⟩ := hsplit
    unfold splitChunk
    by_cases h0 : off = 0
    · rw [if_neg (by omega)] at hi
      simpa [Cut.chunk, h0] using hi
    by_cases hs : off = d.size
    · rw [if_pos ⟨by omega, hs⟩] at hi
      have hd : d.size ≠ 0 := by omega
      simpa [Cut.chunk, hs, hd, headD_eq_head?_getD, or_assoc] using hi
    · rw [if_neg fun hc => hs hc.2] at hi
      have hi' : i ∈ idsOf P ∨ i = d.id := by simpa [Cut.chunk] using hi
      simpa [Cut.chunk, h0, hs, Chunk.left, Chunk.right] using .inl hi'

/-! ## Any position -/

section Any

variable {h h' : Heap} {b : Vbuffer} {pos : Iterator} {mark : Bool} {k : Cut}

theorem splitChunk_mem (h : Heap) (c : Chunk) (off : ℕ) : (splitChunk h c off).1.mem = h.mem := by
  unfold splitChunk
  split_ifs <;> rfl

theorem split_inv (heq : _vbufferIteratorSplit h b pos mark = (h', some k)) :
    (h' = h ∧ (_vbufferIteratorFix b pos).1.after = [] ∧ k = ⟨b.body, [], b.last.markIf mark⟩ ∧
      (mark = true → b.last.flags.writable = true)) ∨
    ∃ P iter rest off, _vbufferIteratorFix b pos = (⟨P, iter :: rest, b.last⟩, off) ∧
      b.body = P ++ iter :: rest ∧ off ≤ iter.size ∧ (mark = true → iter.flags.writable = true) ∧
      h' = (splitChunk h (iter.markIf mark) off).1 ∧
      k = ⟨P ++ (splitChunk h (iter.markIf mark) off).2.1,
        (splitChunk h (iter.markIf mark) off).2.2 ++ rest, b.last⟩ := by
  have hbody := fix_body b pos
  have hlast := fix_cut_last b pos
  have hin : ∀ {c rest}, (_vbufferIteratorFix b pos).1.after = c :: rest → _ := fix_inChunk
  unfold _vbufferIteratorSplit at heq
  dsimp only at heq
  generalize _vbufferIteratorFix b pos = r at hbody heq hin hlast
  obtain ⟨⟨P, A, e⟩, off⟩ := r
  obtain rfl : e = b.last := hlast
  split at heq
  · simp at heq
  next hro =>
  cases A with
  | nil =>
    obtain ⟨rfl, rfl⟩ := heq
    obtain rfl : P = b.body := by simpa using hbody
    refine .inl ⟨rfl, rfl, rfl, ?_⟩
    rintro rfl
    simpa [Cut.chunk] using hro
  | cons iter rest =>
    obtain ⟨rfl, rfl⟩ := heq
    refine .inr ⟨P, iter, rest, off, rfl, hbody.symm, hin rfl, ?_, rfl, rfl⟩
    rintro rfl
    simpa [Cut.chunk] using hro

theorem split_mem (heq : _vbufferIteratorSplit h b pos mark = (h', some k)) : h'.mem = h.mem := by
  obtain ⟨rfl, -⟩ | ⟨P, iter, rest, off, -, -, -, -, rfl, -⟩ := split_inv heq
  · rfl
  · exact splitChunk_mem _ _ _

theorem split_none (heq : _vbufferIteratorSplit h b pos mark = (h', none)) : h' = h := by
  unfold _vbufferIteratorSplit at heq
  dsimp only at heq
  split at heq
  · exact (Prod.mk.inj heq).1.symm
  · split at heq <;> simp at heq

end Any

end Haka
