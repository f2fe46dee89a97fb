import Haka.Vbuffer.Bitfield

/-!
# Bit fields of a buffer

When a field that `vbuffer_setbits` writes is read back by `vbuffer_asbits`, and nothing else is
changed. `vbuffer_setbits` copies the bytes of the sub up to the end of the field, changes them and
writes them back; the write stops at a read-only chunk, and chunks may share memory.

If all bytes are written and no byte of the field has its place elsewhere in the buffer, the
content is patched (`content_setbits`); otherwise two values of the field leave one memory, or a
byte outside of the field changes.
-/

namespace Haka

open List

/-! ## Stores, byte by byte -/

section Stores

variable {h h' : Heap} {p q : ℕ × ℕ} {x y : UInt8}

theorem Heap.ext_byteAt (hnext : h.next = h'.next) (hbyte : ∀ p, h.byteAt p = h'.byteAt p) :
    h = h' := by
  obtain ⟨next, mem⟩ := h
  congr 1
  funext a
  exact ext_getElem? fun i => hbyte (a, i)

theorem byteAt_store_self : (h.store p.1 p.2 [x]).byteAt p = (h.byteAt p).map fun _ => x := by
  cases hp : h.byteAt p with
  | some y => exact byteAt_store_one (by rw [hp]; rfl)
  | none =>
    have hlen : (h.mem p.1).length ≤ p.2 := getElem?_eq_none_iff.1 hp
    refine getElem?_eq_none ?_
    rw [mem_store_self, length_overwrite]
    exact hlen

theorem byteAt_store_ne (hpq : p ≠ q) : (h.store q.1 q.2 [x]).byteAt p = h.byteAt p :=
  byteAt_store_of_not fun ⟨h1, h2, h3⟩ => hpq (Prod.ext h1 (by simp at h3; omega))

variable {l : List ((ℕ × ℕ) × UInt8)}

theorem store_overwritten (hl : ∃ z, (p, z) ∈ l) :
    (h.store p.1 p.2 [x]).writeAll l = (h.store p.1 p.2 [y]).writeAll l := by
  induction l generalizing h with
  | nil =>
    obtain ⟨z, hz⟩ := hl
    cases hz
  | cons qz l ih =>
    obtain ⟨q, z⟩ := qz
    rw [Heap.writeAll, Heap.writeAll]
    by_cases hq : p = q
    · subst hq
      congr 1
      refine Heap.ext_byteAt rfl fun r => ?_
      by_cases hr : r = p
      · subst hr
        simp only [byteAt_store_self, Option.map_map]
        rfl
      · simp only [byteAt_store_ne hr]
    · have hcomm : ∀ w, (h.store p.1 p.2 [w]).store q.1 q.2 [z] =
          (h.store q.1 q.2 [z]).store p.1 p.2 [w] := by
        intro w
        refine Heap.ext_byteAt rfl fun r => ?_
        by_cases hrq : r = q
        · subst hrq
          simp only [byteAt_store_self, byteAt_store_ne (Ne.symm hq)]
        · by_cases hrp : r = p
          · subst hrp
            simp only [byteAt_store_self, byteAt_store_ne hq]
          · simp only [byteAt_store_ne hrq, byteAt_store_ne hrp]
      rw [hcomm x, hcomm y]
      refine ih ?_
      obtain ⟨w, hw⟩ := hl
      refine ⟨w, (mem_cons.1 hw).resolve_left fun heq => hq ?_⟩
      exact congrArg Prod.fst heq

variable {W : List (ℕ × ℕ)} {ws : List UInt8}

theorem writeAll_zip_congr {ws' : List UInt8} (hlen : ws.length = ws'.length)
    (hlast : ∀ i < W.length, (∀ j, i < j → j < ws.length → W[j]? ≠ W[i]?) → ws[i]? = ws'[i]?) :
    h.writeAll (W.zip ws) = h.writeAll (W.zip ws') := by
  induction W generalizing h ws ws' with
  | nil => rfl
  | cons p W ih =>
    cases ws with
    | nil =>
      obtain rfl : ws' = [] := length_eq_zero_iff.1 hlen.symm
      rfl
    | cons x ws =>
      obtain ⟨x', ws', rfl⟩ : ∃ y l, ws' = y :: l := exists_cons_of_length_eq_add_one hlen.symm
      rw [zip_cons_cons, zip_cons_cons, Heap.writeAll, Heap.writeAll]
      have hrest : ∀ h : Heap, h.writeAll (W.zip ws) = h.writeAll (W.zip ws') := by
        intro h
        refine ih (Nat.succ.inj hlen) fun i hiW hi =>
          hlast (i + 1) (Nat.succ_lt_succ hiW) fun j hij hj => ?_
        obtain ⟨j, rfl⟩ := Nat.exists_eq_add_one_of_ne_zero (show j ≠ 0 by omega)
        exact hi j (by omega) (by rw [length_cons] at hj; omega)
      by_cases hp : ∃ z, (p, z) ∈ W.zip ws
      · rw [store_overwritten hp, hrest]
      · have hx : x = x' := by
          have hfirst := hlast 0 (Nat.succ_pos _) fun j h0 hj hjp => hp ?_
          · simpa using hfirst
          · obtain ⟨j, rfl⟩ := Nat.exists_eq_add_one_of_ne_zero (show j ≠ 0 by omega)
            have hjl : j < ws.length := by
              rw [length_cons] at hj
              omega
            refine ⟨ws[j], mem_of_getElem? (i := j) ?_⟩
            rw [getElem?_zip_eq_some]
            exact ⟨by simpa using hjp, getElem?_eq_getElem hjl⟩
        rw [hx, hrest]

theorem isSome_writeAll : ((h.writeAll l).byteAt p).isSome = (h.byteAt p).isSome := by
  induction l generalizing h with
  | nil => rfl
  | cons qz l ih =>
    obtain ⟨q, z⟩ := qz
    rw [Heap.writeAll, ih]
    by_cases hpq : p = q
    · subst hpq
      rw [byteAt_store_self, Option.isSome_map]
    · rw [byteAt_store_ne hpq]

theorem byteAt_writeAll_zip {k : ℕ} (hp : W[k]? = some p)
    (hx : ws[k]? = some x) (hlast : ∀ j, k < j → j < ws.length → W[j]? ≠ some p)
    (hin : (h.byteAt p).isSome) : (h.writeAll (W.zip ws)).byteAt p = some x := by
  induction W generalizing h ws k with
  | nil => simp at hp
  | cons q W ih =>
    cases ws with
    | nil => simp at hx
    | cons z ws =>
      rw [zip_cons_cons, Heap.writeAll]
      cases k with
      | zero =>
        obtain rfl : q = p := by simpa using hp
        obtain rfl : z = x := by simpa using hx
        rw [byteAt_writeAll_of_notMem, byteAt_store_one hin]
        intro y hy
        obtain ⟨j, hj⟩ := mem_iff_getElem?.1 hy
        rw [getElem?_zip_eq_some] at hj
        refine hlast (j + 1) (by omega) ?_ (by simpa using hj.1)
        have := (List.getElem?_eq_some_iff.1 hj.2).1
        rw [length_cons]
        omega
      | succ k =>
        refine ih (by simpa using hp) (by simpa using hx) (fun j hkj hj => ?_) ?_
        · have := hlast (j + 1) (by omega) (by rw [length_cons]; omega)
          simpa using this
        · have := isSome_writeAll (h := h) (p := p) (l := [(q, z)])
          rw [Heap.writeAll, Heap.writeAll] at this
          rw [this]
          exact hin

theorem byteAt_writeAll_same (hl : ∀ y, (p, y) ∈ l → h.byteAt p = some y) : (h.writeAll l).byteAt p = h.byteAt p := by
  by_cases hp : ∃ y, (p, y) ∈ l
  · obtain ⟨y, hy⟩ := hp
    have hold := hl y hy
    rw [hold]
    refine byteAt_writeAll hy (fun z hz => ?_) (by rw [hold]; rfl)
    exact Option.some.inj ((hl z hz).symm.trans hold)
  · exact byteAt_writeAll_of_notMem fun y hy => hp ⟨y, hy⟩

end Stores

/-! ## What a write leaves -/

def Vbuffer.writables (b : Vbuffer) : List Bool :=
  b.body.flatMap fun c => replicate c.size c.flags.writable

/-- How many bytes from `lo` on lie in writable chunks, up to `hi`. -/
def Vbuffer.writableFrom (b : Vbuffer) (lo hi : ℕ) : ℕ :=
  (((b.writables.drop lo).take (hi - lo)).takeWhile id).length

section Write

variable {h : Heap} {b b' : Vbuffer} {data : Sub} {lo hi : ℕ}

theorem pieceOf_writable {c : Chunk} {start len : ℕ} (hle : start + len ≤ c.size) :
    pieceOf (fun c => replicate c.size c.flags.writable) (c, start, len) =
      replicate len c.flags.writable := by
  rw [pieceOf, drop_replicate, take_replicate, Nat.min_eq_left (Nat.le_sub_of_add_le' hle)]

theorem takeWhile_pieces {pieces : List (Chunk × ℕ × ℕ)}
    (hin : ∀ piece ∈ pieces, piece.2.1 + piece.2.2 ≤ piece.1.size)
    (hlen : ∀ piece ∈ pieces, 0 < piece.2.2) :
    (pieces.takeWhile fun piece => piece.1.flags.writable).flatMap (pieceOf Chunk.places) =
      (pieces.flatMap (pieceOf Chunk.places)).take
        ((pieces.flatMap (pieceOf fun c => replicate c.size c.flags.writable)).takeWhile
          id).length := by
  induction pieces with
  | nil => rfl
  | cons piece pieces ih =>
    obtain ⟨c, start, len⟩ := piece
    obtain ⟨hle, hin⟩ := forall_mem_cons.1 hin
    obtain ⟨hpos, hlen⟩ := forall_mem_cons.1 hlen
    replace hpos : 0 < len := hpos
    have hplaces : (pieceOf Chunk.places (c, start, len)).length = len := by
      rw [pieceOf, length_take, length_drop, length_chunk_places]
      exact Nat.min_eq_left (Nat.le_sub_of_add_le' hle)
    rw [flatMap_cons, flatMap_cons, pieceOf_writable hle, takeWhile_cons]
    cases hc : c.flags.writable with
    | true =>
      have hall : ∀ n, (pieceOf Chunk.places (c, start, len)).take (len + n) =
          pieceOf Chunk.places (c, start, len) :=
        fun n => take_of_length_le (by rw [hplaces]; exact Nat.le_add_right _ _)
      rw [if_pos rfl, flatMap_cons, ih hin hlen, takeWhile_append_of_pos (by simp),
        length_append, length_replicate, take_append, hplaces,
        Nat.add_sub_cancel_left, hall]
    | false =>
      obtain ⟨n, hn⟩ := Nat.exists_eq_add_one_of_ne_zero hpos.ne'
      rw [if_neg Bool.false_ne_true, hn, replicate_succ, cons_append, takeWhile_cons]
      rfl

theorem mmaps_pos (b : Vbuffer) (data : Sub) : ∀ piece ∈ vbufferMmaps b data, 0 < piece.2.2 := by
  intro piece hp
  have := of_mem_filter hp
  simp only [Bool.not_or, Bool.and_eq_true, Bool.not_eq_true', beq_eq_false_iff_ne] at this
  omega

/-- **Write.** `vbuffer_sub_write` stores its bytes in the places of the range, up to the first
read-only chunk. -/
theorem subWrite_heap (hb : b.WF h) (hc : b.Covers data lo hi) (ho : b.Ordered data)
    (src : List UInt8) :
    (vbufferSubWrite h b data src).1 =
      h.writeAll (((b.rangePlaces lo hi).take (b.writableFrom lo hi)).zip src) := by
  have hin := mmaps_mem hb data
  have hplaces := mmaps_slice (fun c _ => length_chunk_places c) hb hc ho
  have hwritable := mmaps_slice (f := fun c => replicate c.size c.flags.writable)
    (fun c _ => length_replicate) hb hc ho
  have hpieces := takeWhile_pieces (fun piece hp => (hin piece hp).2) (mmaps_pos b data)
  rw [hplaces, hwritable] at hpieces
  rw [vbufferSubWrite, if_pos hc.check, subWriteLoop_takeWhile, Vbuffer.rangePlaces,
    Vbuffer.writableFrom, Vbuffer.places, Vbuffer.writables, ← hpieces]
  congr 2
  exact flatMap_congr fun piece hp =>
    (pieceOf_places (hin piece ((takeWhile_sublist _).subset hp)).2).symm

theorem Vbuffer.Remarked.asbits (hr : b.Remarked b') (h : Heap) (data : Sub) (offset bits : ℕ)
    (bigendian : Bool) :
    vbufferAsbits h b' data offset bits bigendian =
      vbufferAsbits h b data offset bits bigendian := by
  have hread : ∀ (b : Vbuffer) (n : ℕ),
      vbufferSubRead h b.unmark data n = vbufferSubRead h b data n := by
    intro b n
    rw [vbufferSubRead, vbufferSubRead, subCheck_unmark, mmaps_unmark, flatMap_map]
    rfl
  have hunmark : ∀ b : Vbuffer, vbufferAsbits h b.unmark data offset bits bigendian =
      vbufferAsbits h b data offset bits bigendian := by
    intro b
    simp only [vbufferAsbits, subSize_unmark, hread]
  rw [← hunmark b', hr.unmark, hunmark]

end Write

/-! ## The two functions -/

/-- No other byte of the buffer lies at the place of the byte `q`. -/
def Vbuffer.PlacedOnce (b : Vbuffer) (q : ℕ) : Prop := ∀ r, b.places[r]? = b.places[q]? → r = q

section Field

variable {h : Heap} {b : Vbuffer} {data : Sub} {lo hi o bits : ℕ} {big : Bool}

/-- A field of `bits` bits at the bit `o`, within the first eight bytes of a range. -/
structure FieldIn (h : Heap) (b : Vbuffer) (data : Sub) (lo hi o bits : ℕ) : Prop where
  wf : b.WF h
  covers : b.Covers data lo hi
  pos : 0 < bits
  le : o + bits ≤ 8 * min (hi - lo) 8

/-- The bytes of the range that `vbuffer_setbits` writes into. -/
def Vbuffer.writtenPlaces (b : Vbuffer) (lo hi : ℕ) : List (ℕ × ℕ) :=
  (b.rangePlaces lo hi).take (b.writableFrom lo hi)

theorem getElem?_writtenPlaces {i : ℕ} (hi' : i < hi - lo) (hw : i < b.writableFrom lo hi) :
    (b.writtenPlaces lo hi)[i]? = b.places[lo + i]? := by
  rw [Vbuffer.writtenPlaces, getElem?_take_of_lt hw, Vbuffer.rangePlaces,
    getElem?_take_of_lt hi', getElem?_drop]

theorem getElem?_writtenPlaces_eq {i : ℕ} {p : ℕ × ℕ}
    (hp : (b.writtenPlaces lo hi)[i]? = some p) : b.places[lo + i]? = some p := by
  have hi' := (List.getElem?_eq_some_iff.1 hp).1
  rw [Vbuffer.writtenPlaces, length_take, Vbuffer.rangePlaces, length_take] at hi'
  rwa [getElem?_writtenPlaces (by omega) (by omega)] at hp

theorem getElem?_content (hb : b.WF h) (q : ℕ) :
    (b.content h)[q]? = (b.places[q]?).bind h.byteAt := by
  have := congrArg (fun l => l[q]?.join) (byteAt_content hb)
  cases hq : b.places[q]? <;> cases hx : (b.content h)[q]? <;> simp_all

theorem wf_writeAll (hb : b.WF h) (l : List ((ℕ × ℕ) × UInt8)) : b.WF (h.writeAll l) := by
  induction l generalizing h with
  | nil => exact hb
  | cons pz l ih => exact ih (hb.of_lengths le_rfl (length_store h _ _ _))

theorem content_writeAll_last {W : List (ℕ × ℕ)} {ws : List UInt8} {q j : ℕ} {x : UInt8}
    (hb : b.WF h) (hq : q < totalSize b.body) (hj : W[j]? = b.places[q]?) (hx : ws[j]? = some x)
    (hlast : ∀ j', j < j' → j' < ws.length → W[j']? ≠ b.places[q]?) :
    (b.content (h.writeAll (W.zip ws)))[q]? = some x := by
  have hcontent := getElem?_content hb q
  rw [getElem?_eq_getElem (by rw [hb.length_content]; exact hq)] at hcontent
  obtain ⟨p, hp, hin⟩ := Option.bind_eq_some_iff.1 hcontent.symm
  rw [getElem?_content (wf_writeAll hb _), hp, Option.bind_some]
  rw [hp] at hj hlast
  exact byteAt_writeAll_zip hj hx hlast (by rw [hin]; rfl)

theorem asbits_eq (hf : FieldIn h b data lo hi o bits) :
    vbufferAsbits h b data o bits big = .ret (readBits big ((b.content h).drop lo) o bits) := by
  obtain ⟨hb, hc, hpos, hle⟩ := hf
  have ho := ordered_of_lt hb hc (by omega)
  unfold vbufferAsbits readBits
  simp only [subSize_spec hb hc ho]
  rw [if_neg (by omega), if_neg (by omega), if_neg (by omega), subRead_spec hb hc ho,
    Nat.min_eq_left (by omega)]

theorem asbits_outside (hb : b.WF h) (hc : b.Covers data lo hi) (ho : b.Ordered data)
    (hle : ¬o + bits ≤ 8 * min (hi - lo) 8) (h' h'' : Heap) :
    vbufferAsbits h' b data o bits big = vbufferAsbits h'' b data o bits big := by
  unfold vbufferAsbits
  simp only [subSize_spec hb hc ho]
  split_ifs with h1 h2 h3
  · rfl
  · rfl
  · rfl
  · omega

variable {num : ℤ}

theorem setbits_eq (hf : FieldIn h b data lo hi o bits) (hfits : numFits num bits = true) :
    (vbufferSetbits h b data o bits big num).2.2 = true ∧
      (vbufferSetbits h b data o bits big num).1 = h.writeAll
        ((b.writtenPlaces lo hi).zip (writeBits big ((b.content h).drop lo) o bits num)) := by
  obtain ⟨hb, hc, hpos, hle⟩ := hf
  have ho := ordered_of_lt hb hc (by omega)
  have htemp : vbufferSubRead h b data ((o + bits + 7) / 8) =
      ((b.content h).drop lo).take ((o + bits + 7) / 8) := by
    rw [subRead_spec hb hc ho, Nat.min_eq_left (by omega)]
  unfold vbufferSetbits
  simp only [subSize_spec hb hc ho, hfits, htemp]
  rw [if_neg (by simp; omega), if_neg (by simp; omega), if_neg (by omega)]
  refine ⟨rfl, ?_⟩
  rw [subWrite_heap hb hc ho, take_take, Nat.min_eq_left (by omega)]
  rfl

theorem wf_setbits (hb : b.WF h) (v : ℤ) : b.WF (vbufferSetbits h b data o bits big v).1 :=
  have hwrote := setbits_wrote hb data o bits big v
  hb.of_lengths hwrote.next.ge hwrote.lengths

section

variable (hf : FieldIn h b data lo hi o bits)

include hf

theorem field_le_length :
    (o + bits + 7) / 8 ≤ ((b.content h).drop lo).length := by
  have hhi := hf.covers.le.2
  have hle := hf.le
  rw [length_drop, hf.wf.length_content]
  omega

theorem length_before_field :
    ((b.content h).take lo).length = lo := by
  have hhi := hf.covers.le
  rw [length_take, hf.wf.length_content]
  omega

theorem content_setbits_written
    (hw : (o + bits + 7) / 8 ≤ b.writableFrom lo hi)
    (hfits : numFits num bits = true) {k : ℕ} (hk : k < (o + bits + 7) / 8)
    (hlast : ∀ j, k < j → j < (o + bits + 7) / 8 → b.places[lo + j]? ≠ b.places[lo + k]?) :
    (b.content (vbufferSetbits h b data o bits big num).1)[lo + k]? =
      (writeBits big ((b.content h).drop lo) o bits num)[k]? := by
  have ⟨hb, hc, hpos, hle⟩ := hf
  have hlen := field_le_length hf
  have hwlen : (writeBits big ((b.content h).drop lo) o bits num).length = (o + bits + 7) / 8 :=
    length_writeBits hlen num
  obtain ⟨x, hx⟩ : ∃ x, (writeBits big ((b.content h).drop lo) o bits num)[k]? = some x :=
    ⟨_, getElem?_eq_getElem (by omega)⟩
  have hhi := hc.le.2
  rw [(setbits_eq hf hfits).2, hx]
  refine content_writeAll_last hb (by omega) (getElem?_writtenPlaces (by omega) (by omega)) hx
    fun j hkj hj => ?_
  rw [getElem?_writtenPlaces (by omega) (by omega)]
  exact hlast j hkj (by omega)

theorem content_setbits_other (hbits : bits ≤ 63)
    (honce : ∀ k, o / 8 ≤ k → k < (o + bits + 7) / 8 → b.PlacedOnce (lo + k)) {v : ℕ}
    (hv : v < 2 ^ bits) {q : ℕ} (hq : ¬(lo + o / 8 ≤ q ∧ q < lo + (o + bits + 7) / 8)) :
    (b.content (vbufferSetbits h b data o bits big v).1)[q]? = (b.content h)[q]? := by
  have hb := hf.wf
  have hlen := field_le_length hf
  have hwlen : (writeBits big ((b.content h).drop lo) o bits v).length = (o + bits + 7) / 8 :=
    length_writeBits hlen v
  have hfits := numFits_of_lt (Nat.lt_succ_of_le hbits) hv
  rw [getElem?_content (wf_setbits hb v), (setbits_eq hf hfits).2, getElem?_content hb]
  cases hp : b.places[q]? with
  | none => rfl
  | some p =>
    -- what is written at its place are bytes before the field, as they are
    refine byteAt_writeAll_same fun y hy => ?_
    obtain ⟨j, hj⟩ := mem_iff_getElem?.1 hy
    rw [getElem?_zip_eq_some] at hj
    have hplace := getElem?_writtenPlaces_eq hj.1
    have hjlen := (List.getElem?_eq_some_iff.1 hj.2).1
    have hbefore : j < o / 8 := by
      by_contra hge
      have := honce j (by omega) (by omega) q (hp.trans hplace.symm)
      omega
    have hy' := hj.2
    rw [writeBits_getElem?_of_lt hbefore _ hlen, getElem?_drop, getElem?_content hb, hplace] at hy'
    exact hy'

/-- **Content.** If all bytes up to the end of the field are written and no byte of the field is
placed twice, the content is patched. -/
theorem content_setbits (hbits : bits ≤ 63)
    (hw : (o + bits + 7) / 8 ≤ b.writableFrom lo hi)
    (honce : ∀ k, o / 8 ≤ k → k < (o + bits + 7) / 8 → b.PlacedOnce (lo + k)) {v : ℕ}
    (hv : v < 2 ^ bits) :
    b.content (vbufferSetbits h b data o bits big v).1 =
      (b.content h).take lo ++ patchBits big ((b.content h).drop lo) o bits v := by
  have hlen := field_le_length hf
  have hwlen : (writeBits big ((b.content h).drop lo) o bits v).length = (o + bits + 7) / 8 :=
    length_writeBits hlen v
  have hlo := length_before_field hf
  refine ext_getElem? fun q => ?_
  by_cases hfield : lo + o / 8 ≤ q ∧ q < lo + (o + bits + 7) / 8
  · obtain ⟨k, rfl⟩ := Nat.exists_eq_add_of_le (show lo ≤ q by omega)
    have hfits := numFits_of_lt (Nat.lt_succ_of_le hbits) hv
    rw [content_setbits_written hf hw hfits (by omega),
      getElem?_append_right (by omega), hlo, Nat.add_sub_cancel_left, patchBits,
      getElem?_append_left (by omega)]
    intro j hkj hj hjk
    have := honce k (by omega) (by omega) (lo + j) hjk
    omega
  · rw [content_setbits_other hf hbits honce hv hfield]
    by_cases hq : q < lo
    · rw [getElem?_append_left (by omega), getElem?_take_of_lt hq]
    · obtain ⟨k, rfl⟩ := Nat.exists_eq_add_of_le (show lo ≤ q by omega)
      rw [getElem?_append_right (by omega), hlo, Nat.add_sub_cancel_left, patchBits]
      by_cases hk : k < (o + bits + 7) / 8
      · rw [getElem?_append_left (by omega), writeBits_getElem?_of_lt (by omega) _ hlen,
          getElem?_drop]
      · rw [getElem?_append_right (by omega), hwlen, getElem?_drop, getElem?_drop,
          Nat.add_sub_cancel' (by omega)]

end

end Field

/-! ## The round trip -/

/-- The bit `n` of some bytes, counted from the highest bit of each byte or from its lowest. -/
def bitOf (big : Bool) (bytes : List UInt8) (n : ℕ) : Option Bool :=
  (bytes[n / 8]?).map fun x => x.toNat.testBit (if big then 7 - n % 8 else n % 8)

theorem getElem?_eq_of_bitOf (big : Bool) {bytes bytes' : List UInt8} {q : ℕ}
    (h : ∀ l < 8, bitOf big bytes (8 * q + l) = bitOf big bytes' (8 * q + l)) :
    bytes[q]? = bytes'[q]? := by
  have hbit : ∀ l < 8, (bytes[q]?).map (fun x => x.toNat.testBit (if big then 7 - l else l)) =
      (bytes'[q]?).map fun x => x.toNat.testBit (if big then 7 - l else l) := by
    intro l hl
    have hl' := h l hl
    rwa [bitOf, bitOf, show (8 * q + l) / 8 = q by omega, show (8 * q + l) % 8 = l by omega] at hl'
  cases hx : bytes[q]? <;> cases hy : bytes'[q]? <;> rw [hx, hy] at hbit
  · cases hbit 0 (by omega)
  · cases hbit 0 (by omega)
  · refine congrArg some (byte_ext fun l hl => ?_)
    have hone := Option.some.inj (hbit (if big then 7 - l else l) (by split <;> omega))
    cases big with
    | true => rwa [if_pos rfl, if_pos rfl, show 7 - (7 - l) = l by omega] at hone
    | false => exact hone

/-- The bit `n` of the buffer. -/
def Vbuffer.bitAt (big : Bool) (h : Heap) (b : Vbuffer) (n : ℕ) : Option Bool :=
  bitOf big (b.content h) n

/-- A field is written and read back, and nothing else changes: no other bit of the buffer and no
other field of the range. -/
structure SetsBits (h : Heap) (b : Vbuffer) (data : Sub) (lo o bits : ℕ) (big : Bool) (v : ℕ) :
    Prop where
  succeeds : (vbufferSetbits h b data o bits big v).2.2 = true
  reads : vbufferAsbits (vbufferSetbits h b data o bits big v).1
    (vbufferSetbits h b data o bits big v).2.1 data o bits big = .ret v
  others : ∀ o' n, 0 < n → o' + n ≤ o ∨ o + bits ≤ o' →
    vbufferAsbits (vbufferSetbits h b data o bits big v).1
      (vbufferSetbits h b data o bits big v).2.1 data o' n big = vbufferAsbits h b data o' n big
  unchanged : ∀ n, ¬(8 * lo + o ≤ n ∧ n < 8 * lo + o + bits) →
    (vbufferSetbits h b data o bits big v).2.1.bitAt big
      (vbufferSetbits h b data o bits big v).1 n = b.bitAt big h n

/-- Every value of a field is written and read back, whatever the blocks hold. -/
def BitsRoundTrip (h : Heap) (b : Vbuffer) (data : Sub) (lo o bits : ℕ) (big : Bool) : Prop :=
  ∀ m : ℕ → List UInt8, (∀ a, (m a).length = (h.mem a).length) → ∀ v < 2 ^ bits,
    SetsBits ⟨h.next, m⟩ b data lo o bits big v

section RoundTrip

variable {h : Heap} {b : Vbuffer} {data : Sub} {lo hi o bits : ℕ} {big : Bool}

variable {v k : ℕ}

section

variable (hf : FieldIn h b data lo hi o bits)
  (hbits : bits ≤ 63)
  (hw : (o + bits + 7) / 8 ≤ b.writableFrom lo hi)
  (honce : ∀ k, o / 8 ≤ k → k < (o + bits + 7) / 8 → b.PlacedOnce (lo + k))

include hf hbits hw honce

theorem bit_patch
    (hfield : o < 8 ∨ (o = 32 ∧ bits ≤ 8)) (hv : v < 2 ^ bits) {n : ℕ}
    (hn : ¬(8 * lo + o ≤ n ∧ n < 8 * lo + o + bits)) :
    b.bitAt big (vbufferSetbits h b data o bits big v).1 n = b.bitAt big h n := by
  have hlen := field_le_length hf
  have hplen : (patchBits big ((b.content h).drop lo) o bits v).length =
      ((b.content h).drop lo).length := length_patchBits hlen v
  have hlo := length_before_field hf
  unfold Vbuffer.bitAt bitOf
  rw [content_setbits hf hbits hw honce hv]
  by_cases hq : n / 8 < lo
  · rw [getElem?_append_left (by omega), getElem?_take_of_lt hq]
  · obtain ⟨k, hk⟩ := Nat.exists_eq_add_of_le (show lo ≤ n / 8 by omega)
    rw [hk, getElem?_append_right (by omega), hlo, Nat.add_sub_cancel_left, ← getElem?_drop]
    cases hx : ((b.content h).drop lo)[k]? with
    | none =>
      rw [getElem?_eq_none (by rw [hplen]; exact getElem?_eq_none_iff.1 hx)]
    | some x =>
      obtain ⟨y, hy⟩ : ∃ y, (patchBits big ((b.content h).drop lo) o bits v)[k]? = some y :=
        ⟨_, getElem?_eq_getElem (by rw [hplen]; exact (List.getElem?_eq_some_iff.1 hx).1)⟩
      rw [hy, Option.map_some, Option.map_some]
      refine congrArg some (testBit_patchBits hlen hfield v hx hy ?_ ?_)
      · split <;> omega
      · cases big <;> simp only [if_true, Bool.false_eq_true, if_false] <;> omega

theorem setsBits_of_sound
    (hsound : BitsSound big (hi - lo) o bits) (hv : v < 2 ^ bits) :
    SetsBits h b data lo o bits big v := by
  have ⟨hb, hc, hpos, hle⟩ := hf
  have hlen := field_le_length hf
  have hr := (setbits_wrote hb data o bits big v).remarked
  have hb' : b.WF (vbufferSetbits h b data o bits big v).1 := wf_setbits hb v
  have hlo := length_before_field hf
  have hcontent : (b.content (vbufferSetbits h b data o bits big v).1).drop lo =
      patchBits big ((b.content h).drop lo) o bits v := by
    rw [content_setbits hf hbits hw honce hv, drop_left' hlo]
  have hfits := numFits_of_lt (Nat.lt_succ_of_le hbits) hv
  refine ⟨(setbits_eq hf hfits).1, ?_, fun o' n hn hapart => ?_, fun n hn => ?_⟩
  · rw [hr.asbits, asbits_eq ⟨hb', hc, hpos, hle⟩, hcontent,
      readBits_patchBits (hsound.imp_left fun h => ⟨h.1, h.2.2⟩) hpos hbits (by omega) hlen hv]
  · rw [hr.asbits]
    by_cases hin : o' + n ≤ 8 * min (hi - lo) 8
    · rw [asbits_eq ⟨hb', hc, hn, hin⟩, asbits_eq ⟨hb, hc, hn, hin⟩, hcontent,
        readBits_patchBits_of_apart hsound hlen v hn hin hapart]
    · exact asbits_outside hb hc (ordered_of_lt hb hc (by omega)) hin _ _
  · have hbit : b.bitAt big _ n = _ :=
      bit_patch hf hbits hw honce (hsound.imp_left And.left) hv hn
    unfold Vbuffer.bitAt bitOf at hbit ⊢
    rw [hr.content, hbit]

end

/-! ## The conditions are needed -/

theorem own_bit (big : Bool) (hf : FieldIn h b data lo hi o bits) (hk : o / 8 ≤ k)
    (hke : k < (o + bits + 7) / 8) :
    ∃ t < bits, ∀ i ≠ k, (writeBits big ((b.content h).drop lo) o bits ((2 ^ t : ℕ) : ℤ))[i]? =
      (writeBits big ((b.content h).drop lo) o bits ((0 : ℕ) : ℤ))[i]? :=
  have hle := hf.le
  writeBits_bit hf.pos (by omega) hk hke (field_le_length hf)

/-- The value 0 and each value of one bit leave different memory. -/
def BitsTold (h : Heap) (b : Vbuffer) (lo hi o bits : ℕ) (big : Bool) : Prop :=
  ∀ t < bits,
    h.writeAll ((b.writtenPlaces lo hi).zip
        (writeBits big ((b.content h).drop lo) o bits ((2 ^ t : ℕ) : ℤ))) ≠
      h.writeAll ((b.writtenPlaces lo hi).zip
        (writeBits big ((b.content h).drop lo) o bits ((0 : ℕ) : ℤ)))

theorem told_of_roundTrip (hf : FieldIn h b data lo hi o bits) (hbits : bits ≤ 63)
    (hP : ∀ v < 2 ^ bits, SetsBits h b data lo o bits big v) : BitsTold h b lo hi o bits big := by
  intro t ht heq
  have hb := hf.wf
  have ht' : 2 ^ t < 2 ^ bits := Nat.pow_lt_pow_right (by omega) ht
  have h0 : 0 < 2 ^ bits := Nat.two_pow_pos bits
  have hfits := numFits_of_lt (Nat.lt_succ_of_le hbits) ht'
  have hfits0 := numFits_of_lt (Nat.lt_succ_of_le hbits) h0
  have hread := (hP _ ht').reads
  have hread0 := (hP 0 h0).reads
  rw [(setbits_wrote hb data o bits big _).remarked.asbits, (setbits_eq hf hfits).2,
    heq] at hread
  rw [(setbits_wrote hb data o bits big _).remarked.asbits, (setbits_eq hf hfits0).2,
    hread] at hread0
  have hzero : ((2 ^ t : ℕ) : ℤ) = ((0 : ℕ) : ℤ) := by injection hread0
  have := Nat.two_pow_pos t
  omega

section

variable (htold : BitsTold h b lo hi o bits big) (hf : FieldIn h b data lo hi o bits)

include htold hf

theorem BitsTold.written : (o + bits + 7) / 8 ≤ b.writableFrom lo hi := by
  have ⟨_, _, hpos, hle⟩ := hf
  have hlen := field_le_length hf
  by_contra hshort
  -- the last byte of the field is not written, and it has a bit of its own
  obtain ⟨t, ht, hbit⟩ := own_bit big hf
    (show o / 8 ≤ (o + bits + 7) / 8 - 1 by omega) (by omega)
  refine htold t ht (writeAll_zip_congr ?_ fun i hi _ => hbit i ?_)
  · rw [length_writeBits hlen, length_writeBits hlen]
  · rw [Vbuffer.writtenPlaces, length_take] at hi
    omega

theorem BitsTold.kept : BitsKept o bits := by
  have hle := hf.le
  by_contra hlost
  obtain ⟨t, ht, heq⟩ : ∃ t < bits, writeBits big _ o bits ((2 ^ t : ℕ) : ℤ) = _ :=
    writeBits_lost hf.pos (by omega) hlost (field_le_length hf)
  exact htold t ht (by rw [heq])

theorem BitsTold.places_ne {j : ℕ} (hk : o / 8 ≤ k) (hkj : k < j) (hj : j < (o + bits + 7) / 8) :
    b.places[lo + j]? ≠ b.places[lo + k]? := by
  intro hplace
  have hle := hf.le
  have hlen := field_le_length hf
  have hw := htold.written hf
  obtain ⟨t, ht, hbit⟩ := own_bit big hf hk (hkj.trans hj)
  have hwlen : ∀ num : ℤ, (writeBits big ((b.content h).drop lo) o bits num).length =
      (o + bits + 7) / 8 := length_writeBits hlen
  refine htold t ht (writeAll_zip_congr (by rw [hwlen, hwlen]) fun i _ hlast => hbit i ?_)
  rintro rfl
  refine hlast j hkj (by rw [hwlen]; exact hj) ?_
  rw [getElem?_writtenPlaces (by omega) (by omega), getElem?_writtenPlaces (by omega) (by omega),
    hplace]

end

theorem byte_unchanged (hs : SetsBits h b data lo o bits big v) (hb : b.WF h) {q : ℕ}
    (hq : ¬(lo + o / 8 ≤ q ∧ q < lo + (o + bits + 7) / 8)) :
    (b.content (vbufferSetbits h b data o bits big v).1)[q]? = (b.content h)[q]? := by
  refine getElem?_eq_of_bitOf big fun l hl => ?_
  have hbit := hs.unchanged (8 * q + l) (by omega)
  rwa [Vbuffer.bitAt, (setbits_wrote hb data o bits big v).remarked.content] at hbit

theorem placedOnce_of_roundTrip (hf : FieldIn h b data lo hi o bits) (hbits : bits ≤ 63)
    (hP : ∀ v < 2 ^ bits, SetsBits h b data lo o bits big v) (hk : o / 8 ≤ k)
    (hke : k < (o + bits + 7) / 8) : b.PlacedOnce (lo + k) := by
  intro r hr
  have hb := hf.wf
  have htold := told_of_roundTrip hf hbits hP
  have hw := htold.written hf
  by_contra hne
  by_cases hfield : lo + o / 8 ≤ r ∧ r < lo + (o + bits + 7) / 8
  · obtain ⟨j, rfl⟩ := Nat.exists_eq_add_of_le (show lo ≤ r by omega)
    rcases Nat.lt_or_gt_of_ne (show j ≠ k by omega) with hjk | hjk
    · exact htold.places_ne hf (by omega) hjk hke hr.symm
    · exact htold.places_ne hf hk hjk (by omega) hr
  · -- a byte outside of the field keeps its value, so the byte of the field has but one
    have hone : ∀ v : ℕ, v < 2 ^ bits →
        (writeBits big ((b.content h).drop lo) o bits v)[k]? = (b.content h)[r]? := by
      intro v hv
      rw [← byte_unchanged (hP v hv) hb hfield, getElem?_content (wf_setbits hb v), hr,
        ← getElem?_content (wf_setbits hb v)]
      have hfits := numFits_of_lt (Nat.lt_succ_of_le hbits) hv
      exact (content_setbits_written hf hw hfits hke fun j hkj hj =>
        htold.places_ne hf hk hkj hj).symm
    obtain ⟨t, ht, hbit⟩ := own_bit big hf hk hke
    refine htold t ht ?_
    congr 2
    refine ext_getElem? fun i => ?_
    by_cases hi : i = k
    · rw [hi, hone _ (Nat.pow_lt_pow_right (by omega) ht), hone 0 (Nat.two_pow_pos bits)]
    · exact hbit i hi

/-! ## Memory of one byte -/

theorem readBits_append {bytes rest : List UInt8} {o' n : ℕ}
    (hlen : (o' + n + 7) / 8 ≤ bytes.length) :
    readBits big (bytes ++ rest) o' n = readBits big bytes o' n := by
  unfold readBits
  rw [take_append_of_le_length hlen]

theorem patchBits_append {bytes rest : List UInt8} (hlen : (o + bits + 7) / 8 ≤ bytes.length)
    (num : ℤ) :
    patchBits big (bytes ++ rest) o bits num = patchBits big bytes o bits num ++ rest := by
  unfold patchBits writeBits
  rw [take_append_of_le_length hlen, take_append_of_le_length (by omega),
    drop_append_of_le_length hlen, ← append_assoc]

def Heap.filled (h : Heap) (x : UInt8) : Heap :=
  ⟨h.next, fun a => replicate (h.mem a).length x⟩

theorem content_filled (hb : b.WF h) (x : UInt8) : b.WF (h.filled x) ∧
    b.content (h.filled x) = replicate (totalSize b.body) x := by
  have hb' : b.WF (h.filled x) := hb.of_lengths le_rfl fun a => length_replicate
  refine ⟨hb', eq_replicate_iff.2 ⟨hb'.length_content, fun y hy => ?_⟩⟩
  obtain ⟨c, -, hyc⟩ := mem_flatMap.1 hy
  exact eq_of_mem_replicate (mem_of_mem_drop (mem_of_mem_take hyc))

/-- In a memory of zeros, the fields of the first bytes are read back and leave the others. -/
theorem zeros_of_roundTrip (hf : FieldIn h b data lo hi o bits) (hbits : bits ≤ 63)
    (hP : BitsRoundTrip h b data lo o bits big) {N : ℕ} (hN : N ≤ hi - lo)
    (hend : (o + bits + 7) / 8 ≤ N) (hv : v < 2 ^ bits) :
    readBits big (patchBits big (replicate N 0) o bits v) o bits = v ∧
      ∀ o' n, 0 < n → (o' + n + 7) / 8 ≤ N → o' + n ≤ 64 → o' + n ≤ o ∨ o + bits ≤ o' →
        readBits big (patchBits big (replicate N 0) o bits v) o' n =
          readBits big (replicate N 0) o' n := by
  obtain ⟨hb, hc, hpos, hle⟩ := hf
  obtain ⟨hb0, hzero⟩ := content_filled hb 0
  have hf0 : FieldIn (h.filled 0) b data lo hi o bits := ⟨hb0, hc, hpos, hle⟩
  have hP0 : ∀ v < 2 ^ bits, SetsBits (h.filled 0) b data lo o bits big v :=
    hP _ fun a => length_replicate
  have hr := (setbits_wrote hb0 data o bits big v).remarked
  have hb' : b.WF (vbufferSetbits (h.filled 0) b data o bits big v).1 := wf_setbits hb0 v
  have hhi := hc.le.2
  have hsplit : (b.content (h.filled 0)).drop lo =
      replicate N 0 ++ replicate (totalSize b.body - lo - N) 0 := by
    rw [hzero, drop_replicate, replicate_append_replicate]
    congr 1
    omega
  have hlo := length_before_field hf0
  have hcontent : (b.content (vbufferSetbits (h.filled 0) b data o bits big v).1).drop lo =
      patchBits big (replicate N 0) o bits v ++
        replicate (totalSize b.body - lo - N) 0 := by
    rw [content_setbits hf0 hbits ((told_of_roundTrip hf0 hbits hP0).written hf0)
      (fun k => placedOnce_of_roundTrip hf0 hbits hP0) hv, drop_left' hlo, hsplit,
      patchBits_append (by rwa [length_replicate])]
  have hlen : (patchBits big (replicate N 0) o bits v).length = N := by
    rw [length_patchBits (by rwa [length_replicate]), length_replicate]
  refine ⟨?_, fun o' n hn hin h64 hapart => ?_⟩
  · have hread := (hP0 v hv).reads
    rw [hr.asbits, asbits_eq ⟨hb', hc, hpos, hle⟩, hcontent, readBits_append (by omega)] at hread
    injection hread
  · have hother := (hP0 v hv).others o' n hn hapart
    rw [hr.asbits, asbits_eq ⟨hb', hc, hn, by omega⟩, asbits_eq ⟨hb0, hc, hn, by omega⟩, hcontent,
      hsplit, readBits_append (by omega), readBits_append (by rwa [length_replicate])] at hother
    injection hother

theorem sound_of_roundTrip (hf : FieldIn h b data lo hi o bits) (hbits : bits ≤ 63)
    (hP : BitsRoundTrip h b data lo o bits big) : BitsSound big (hi - lo) o bits := by
  have ⟨_, _, hpos, hle⟩ := hf
  have hkept := (told_of_roundTrip hf hbits (hP h.mem fun a => rfl)).kept hf
  have hones : 2 ^ bits - 1 < 2 ^ bits := Nat.sub_lt (Nat.two_pow_pos bits) Nat.one_pos
  have hcast : ((2 ^ bits - 1 : ℕ) : ℤ) = 2 ^ bits - 1 := by
    rw [Nat.cast_sub Nat.one_le_two_pow]
    norm_cast
  rcases hkept with ho | ⟨ho, hend⟩
  · refine .inl ⟨ho, ?_, ?_⟩
    · rintro rfl ⟨h1, h2, h3, h4⟩
      -- the field behind, up to the first bit of the fifth byte
      have hother := (zeros_of_roundTrip hf hbits hP h4 (by omega) hones).2
        (o + bits) (33 - (o + bits)) (by omega) (by omega) (by omega) (.inr le_rfl)
      rw [hcast] at hother
      exact readBits_behind o ho bits (by omega) ⟨h1, h2, h3⟩ hother
    · rintro rfl
      by_contra hlong
      obtain ⟨n, rfl⟩ := Nat.exists_eq_add_of_le' (show 32 ≤ bits by omega)
      have hv : 2 ^ 31 < 2 ^ (n + 32) := Nat.pow_lt_pow_right (by omega) (by omega)
      have hread := (zeros_of_roundTrip hf hbits hP (by omega) le_rfl hv).1
      exact readBits_sign o ho n (by omega) (by omega) (by exact_mod_cast hread)
  · by_cases h32 : o = 32
    · exact .inr ⟨h32, by omega⟩
    · obtain ⟨d, rfl⟩ := Nat.exists_eq_add_of_le' (show 33 ≤ o by omega)
      -- all bits from the second byte up to the field
      have hother := (zeros_of_roundTrip hf hbits hP (show 5 ≤ hi - lo by omega)
        (by omega) hones).2 8 (d + 25) (by omega) (by omega) (by omega) (.inl (by omega))
      rw [hcast] at hother
      exact absurd hother (readBits_across big d (by omega) bits (by omega) hpos (by omega))

/-- **Bit fields.** Every value is written and read back with nothing else changed, whatever the
memory holds, exactly if all chunks up to the end of the field are writable, no byte of the field
shares its place with another one, and the shifts of the two functions are right for the field. -/
theorem bits_round_trip_iff (hb : b.WF h) (hc : b.Covers data lo hi) (hpos : 0 < bits)
    (hbits : bits ≤ 63) (hle : o + bits ≤ 8 * min (hi - lo) 8) :
    BitsRoundTrip h b data lo o bits big ↔
      (o + bits + 7) / 8 ≤ b.writableFrom lo hi ∧
        (∀ k, o / 8 ≤ k → k < (o + bits + 7) / 8 → b.PlacedOnce (lo + k)) ∧
        BitsSound big (hi - lo) o bits := by
  constructor
  · intro hP
    have hf : FieldIn h b data lo hi o bits := ⟨hb, hc, hpos, hle⟩
    have hown : ∀ v < 2 ^ bits, SetsBits h b data lo o bits big v := hP h.mem fun a => rfl
    exact ⟨(told_of_roundTrip hf hbits hown).written hf,
      fun k => placedOnce_of_roundTrip hf hbits hown,
      sound_of_roundTrip hf hbits hP⟩
  · rintro ⟨hw, honce, hsound⟩ m hm v hv
    have hbm : b.WF ⟨h.next, m⟩ := hb.of_lengths le_rfl hm
    exact setsBits_of_sound ⟨hbm, hc, hpos, hle⟩ hbits hw honce hsound hv

theorem placedOnce_of_nodup (hnodup : b.places.Nodup) {q : ℕ} (hq : q < b.places.length) :
    b.PlacedOnce q := by
  intro r hr
  have hr' : r < b.places.length := by
    by_contra hge
    rw [getElem?_eq_none (by omega), getElem?_eq_getElem hq] at hr
    cases hr
  exact (getElem?_inj hr' hnodup).1 hr

end RoundTrip

/-- Eight bits across the first two bytes of `ell`, in the order from the highest bit on. -/
theorem bits_round_trip_hello : helloBuffer.WF helloHeap ∧
      helloBuffer.Covers (vbufferSubCreate helloBuffer 1 (some 3)) 1 4 ∧
      BitsRoundTrip helloHeap helloBuffer (vbufferSubCreate helloBuffer 1 (some 3)) 1 4 8 true :=
  ⟨helloBuffer_wf, subCreate_covers 1 3 helloBuffer_wf,
    (bits_round_trip_iff helloBuffer_wf (subCreate_covers 1 3 helloBuffer_wf) (by decide)
      (by decide) (by decide)).2 ⟨by decide, fun k _ hk =>
        placedOnce_of_nodup (by decide) (show 1 + k < 5 by omega), by decide⟩⟩

/-- The second byte of `hello` as a field at the bit 8: the call succeeds, nothing is written, and 0
is read. -/
theorem second_byte_lost : helloBuffer.WF helloHeap ∧
      (let data := vbufferSubCreate helloBuffer 0 (some 5)
       let after := vbufferSetbits helloHeap helloBuffer data 8 8 true 65
       helloBuffer.Covers data 0 5 ∧ after.2.2 = true ∧
         after.2.1.content after.1 = [104, 101, 108, 108, 111] ∧
         vbufferAsbits after.1 after.2.1 data 8 8 true = .ret 0) :=
  ⟨helloBuffer_wf, subCreate_covers 0 5 helloBuffer_wf, by decide, by decide, by decide +kernel⟩

end Haka
