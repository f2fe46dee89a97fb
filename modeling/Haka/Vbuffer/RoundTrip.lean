import Haka.Vbuffer.Number
import Haka.Vbuffer.Modified

/-!
# Writing a number and reading it back

`vbuffer_setnumber` and `vbuffer_asnumber` find the bytes of a range in the same way: through the
pointer to the first piece if the range is flat, piece by piece otherwise. A write therefore stores
the bytes of the number at the places a read takes them from (`setnumber_eq`), and what is left is
arithmetic: the test of the range of the number, the sign, and whether all the places belong to the
range (`setnumber_roundtrip_iff`).
-/

namespace Haka

open List

/-! ## Marks do not matter -/

section Unmark

variable {h : Heap} {b b' : Vbuffer} {data : Sub}

/-- A buffer without its `modified` flags. -/
def Vbuffer.unmark (b : Vbuffer) : Vbuffer := ⟨b.body.map Chunk.unmark, b.last.unmark⟩

theorem Vbuffer.Remarked.unmark (hr : b.Remarked b') : b'.unmark = b.unmark := by
  rw [Vbuffer.unmark, Vbuffer.unmark, hr.body, hr.last]

/-- A cut without its `modified` flags. -/
def Cut.unmark (k : Cut) : Cut :=
  ⟨k.before.map Chunk.unmark, k.after.map Chunk.unmark, k.last.unmark⟩

theorem Cut.unmark_chunk (k : Cut) : k.unmark.chunk = k.chunk.unmark := by
  obtain ⟨before, after, last⟩ := k
  cases after <;> rfl

theorem totalSize_unmark (l : List Chunk) : totalSize (l.map Chunk.unmark) = totalSize l := by
  simp only [totalSize, map_map]
  rfl

theorem seek_unmark (b : Vbuffer) (id : ℕ) : b.unmark.seek id = (b.seek id).unmark := by
  simp only [Vbuffer.unmark, Vbuffer.seek, Cut.unmark, takeWhile_map, dropWhile_map]
  rfl

theorem fixLoop_unmark (before after : List Chunk) (offset : ℕ) :
    fixLoop (before.map Chunk.unmark) (after.map Chunk.unmark) offset =
      (((fixLoop before after offset).1.1.map Chunk.unmark,
        (fixLoop before after offset).1.2.map Chunk.unmark), (fixLoop before after offset).2) := by
  induction after generalizing before offset with
  | nil => rfl
  | cons iter after ih =>
    simp only [map_cons, fixLoop]
    split_ifs with h1 h2 h2
    · rw [← ih]
      simp only [map_append, map_cons, map_nil]
      rfl
    · exact absurd h1 h2
    · exact absurd h2 h1
    · rfl

theorem fix_unmark (b : Vbuffer) (pos : Iterator) : _vbufferIteratorFix b.unmark pos =
      ((_vbufferIteratorFix b pos).1.unmark, (_vbufferIteratorFix b pos).2) := by
  simp only [_vbufferIteratorFix, seek_unmark, Cut.unmark_chunk]
  by_cases h : pos.offset > (b.seek pos.chunk).chunk.size
  · rw [if_pos h, if_pos (show pos.offset > (b.seek pos.chunk).chunk.unmark.size from h)]
    simp only [Cut.unmark, fixLoop_unmark]
    rfl
  · rw [if_neg h, if_neg (show ¬pos.offset > (b.seek pos.chunk).chunk.unmark.size from h)]

theorem check_unmark (b : Vbuffer) (pos : Iterator) :
    _vbufferIteratorCheck b.unmark pos = _vbufferIteratorCheck b pos := by
  have hall : b.unmark.all = b.all.map Chunk.unmark := by
    simp only [Vbuffer.all, Vbuffer.unmark, map_append, map_cons, map_nil]
  have hfind : b.unmark.all.find? (fun c => c.id = pos.chunk) =
      (b.all.find? fun c => c.id = pos.chunk).map Chunk.unmark := by
    rw [hall, find?_map]
    rfl
  unfold _vbufferIteratorCheck
  rw [hfind]
  cases b.all.find? fun c => c.id = pos.chunk <;> rfl

theorem subCheck_unmark (b : Vbuffer) (data : Sub) :
    _vbufferSubCheck b.unmark data = _vbufferSubCheck b data := by
  cases data <;> simp only [_vbufferSubCheck, check_unmark]

def unmarkPiece (piece : Chunk × ℕ × ℕ) : Chunk × ℕ × ℕ := (piece.1.unmark, piece.2)

theorem subIterateSized_unmark (l : List Chunk) (offset len : ℕ) :
    subIterateSized (l.map Chunk.unmark) offset len =
      (subIterateSized l offset len).map unmarkPiece := by
  induction l generalizing offset len with
  | nil => rfl
  | cons c l ih =>
    simp only [map_cons, subIterateSized, show c.unmark.size = c.size from rfl, ih]
    split_ifs <;> rfl

theorem subIterateBetween_unmark (endId endoffset : ℕ) (l : List Chunk) (offset : ℕ) :
    subIterateBetween endId endoffset (l.map Chunk.unmark) offset =
      (subIterateBetween endId endoffset l offset).map unmarkPiece := by
  induction l generalizing offset with
  | nil => rfl
  | cons c l ih =>
    simp only [map_cons, subIterateBetween, show c.unmark.size = c.size from rfl,
      show c.unmark.id = c.id from rfl, ih]
    split_ifs <;> rfl

theorem availableTo_unmark (endId endoffset : ℕ) (l : List Chunk) (offset : ℕ) :
    availableTo endId endoffset (l.map Chunk.unmark) offset =
      availableTo endId endoffset l offset := by
  induction l generalizing offset with
  | nil => rfl
  | cons c l ih =>
    simp only [map_cons, availableTo, show c.unmark.size = c.size from rfl,
      show c.unmark.id = c.id from rfl, ih]

theorem mmaps_unmark (b : Vbuffer) (data : Sub) :
    vbufferMmaps b.unmark data = (vbufferMmaps b data).map unmarkPiece := by
  have hiterate : _vbufferSubIterate b.unmark data =
      (_vbufferSubIterate b data).map unmarkPiece := by
    cases data with
    | sized begin length =>
      simp only [_vbufferSubIterate, fix_unmark, Cut.unmark, subIterateSized_unmark]
    | between begin «end» =>
      simp only [_vbufferSubIterate, fix_unmark, Cut.unmark_chunk]
      exact subIterateBetween_unmark _ _ _ _
  rw [vbufferMmaps, hiterate, filter_map]
  rfl

theorem subSize_unmark (b : Vbuffer) (data : Sub) :
    vbufferSubSize b.unmark data = vbufferSubSize b data := by
  unfold vbufferSubSize
  rw [subCheck_unmark]
  cases data with
  | sized begin length => simp only [fix_unmark, Cut.unmark, totalSize_unmark]
  | between begin «end» =>
    simp only [fix_unmark, Cut.unmark_chunk]
    simp only [Cut.unmark, availableTo_unmark]
    rfl

theorem isflat_unmark (b : Vbuffer) (data : Sub) :
    vbufferSubIsflat b.unmark data = vbufferSubIsflat b data := by
  have hnext : ∀ k : Cut, (k.unmark.after.tail.headD k.unmark.last).id =
      (k.after.tail.headD k.last).id := by
    rintro ⟨_, _ | ⟨_, _ | _⟩, _⟩ <;> rfl
  unfold vbufferSubIsflat
  rw [subCheck_unmark]
  cases data with
  | sized begin length =>
    simp only [fix_unmark, Cut.unmark_chunk]
    rfl
  | between begin «end» =>
    simp only [fix_unmark, Cut.unmark_chunk, hnext]
    rfl

theorem asnumberPlaces_unmark (b : Vbuffer) (data : Sub) (length : ℕ) :
    asnumberPlaces b.unmark data length = asnumberPlaces b data length := by
  unfold asnumberPlaces subReadPlaces
  rw [isflat_unmark, mmaps_unmark, head?_map, flatMap_map, Option.map_map]
  rfl

theorem Vbuffer.Remarked.asnumber (hr : b.Remarked b') (bigHost : Bool) (h : Heap) (data : Sub)
    (bigendian : Bool) :
    vbufferAsnumber bigHost h b' data bigendian = vbufferAsnumber bigHost h b data bigendian := by
  have hunmark : ∀ b, vbufferAsnumber bigHost h b.unmark data bigendian =
      vbufferAsnumber bigHost h b data bigendian := by
    intro b
    unfold vbufferAsnumber
    simp only [subSize_unmark, asnumberPlaces_unmark]
  rw [← hunmark b', hr.unmark, hunmark b]

end Unmark

/-! ## Bytes at places -/

section WriteAll

variable {h : Heap} {b : Vbuffer} {data : Sub} {p : ℕ × ℕ} {x : UInt8}

def Heap.writeAll (h : Heap) : List ((ℕ × ℕ) × UInt8) → Heap
  | [] => h
  | (p, x) :: l => (h.store p.1 p.2 [x]).writeAll l

theorem writeAll_append (h : Heap) (l l' : List ((ℕ × ℕ) × UInt8)) :
    h.writeAll (l ++ l') = (h.writeAll l).writeAll l' := by
  induction l generalizing h with
  | nil => rfl
  | cons px l ih => exact ih _

variable {l : List ((ℕ × ℕ) × UInt8)}

theorem byteAt_writeAll_of_notMem (hp : ∀ y, (p, y) ∉ l) :
    (h.writeAll l).byteAt p = h.byteAt p := by
  induction l generalizing h with
  | nil => rfl
  | cons px l ih =>
    obtain ⟨q, y⟩ := px
    rw [Heap.writeAll, ih fun z hz => hp z (mem_cons_of_mem _ hz)]
    refine byteAt_store_of_not fun ⟨h1, h2, h3⟩ => hp y ?_
    have hpq : p = q := Prod.ext h1 (by simp at h3; omega)
    rw [hpq]
    exact mem_cons_self

theorem byteAt_store_one (hin : (h.byteAt p).isSome) : (h.store p.1 p.2 [x]).byteAt p = some x :=
  byteAt_store rfl le_rfl hin (by rw [Nat.sub_self]; rfl)

theorem byteAt_writeAll (hp : (p, x) ∈ l)
    (hone : ∀ y, (p, y) ∈ l → y = x) (hin : (h.byteAt p).isSome) :
    (h.writeAll l).byteAt p = some x := by
  induction l generalizing h with
  | nil => cases hp
  | cons px l ih =>
    obtain ⟨q, y⟩ := px
    rw [Heap.writeAll]
    by_cases hmem : (p, x) ∈ l
    · refine ih hmem (fun z hz => hone z (mem_cons_of_mem _ hz)) ?_
      by_cases hpq : p = q
      · subst hpq
        rw [byteAt_store_one hin]
        rfl
      · rw [byteAt_store_of_not fun ⟨h1, h2, h3⟩ => hpq (Prod.ext h1 (by simp at h3; omega))]
        exact hin
    · -- the last store to the place
      have hfirst : (p, x) = (q, y) := (mem_cons.1 hp).resolve_right hmem
      cases hfirst
      rw [byteAt_writeAll_of_notMem, byteAt_store_one hin]
      intro z hz
      rw [hone z (mem_cons_of_mem _ hz)] at hz
      exact hmem hz

theorem overwrite_nil (block : List UInt8) (offset : ℕ) : overwrite block offset [] = block := by
  apply ext_getElem <;> simp [overwrite]

theorem overwrite_cons (block : List UInt8) (offset : ℕ) (x : UInt8) (bytes : List UInt8) :
    overwrite block offset (x :: bytes) =
      overwrite (overwrite block offset [x]) (offset + 1) bytes := by
  apply ext_getElem
  · simp
  · intro i h1 h2
    simp only [overwrite, getElem_mapIdx]
    rcases lt_trichotomy i offset with hi | rfl | hi
    · rw [if_neg (by omega), if_neg (by omega), if_neg (by omega)]
    · simp
    · rw [if_pos (by omega), if_pos (by omega), if_pos (by omega)]
      obtain ⟨d, rfl⟩ : ∃ d, i = offset + 1 + d := ⟨i - (offset + 1), by omega⟩
      rw [show offset + 1 + d - offset = d + 1 by omega, Nat.add_sub_cancel_left,
        getD_cons_succ, getD_cons_succ, getD_nil]

theorem store_nil (h : Heap) (addr offset : ℕ) : h.store addr offset [] = h := by
  unfold Heap.store
  rw [overwrite_nil, Function.update_eq_self]

theorem store_cons (h : Heap) (addr offset : ℕ) (x : UInt8) (bytes : List UInt8) :
    h.store addr offset (x :: bytes) = (h.store addr offset [x]).store addr (offset + 1) bytes := by
  simp only [Heap.store, Function.update_self, Function.update_idem, overwrite_cons _ _ x bytes]

theorem blockPlaces_succ (addr offset n : ℕ) :
    blockPlaces addr offset (n + 1) = (addr, offset) :: blockPlaces addr (offset + 1) n := by
  simp only [blockPlaces, range_succ_eq_map, map_cons, map_map]
  refine congrArg _ (map_congr_left fun i _ => ?_)
  simp only [Function.comp_apply, Nat.succ_eq_add_one]
  rw [Nat.add_assoc, Nat.add_comm 1]

theorem store_take_eq (h : Heap) (addr offset n : ℕ) (bytes : List UInt8) :
    h.store addr offset (bytes.take n) = h.writeAll ((blockPlaces addr offset n).zip bytes) := by
  induction n generalizing h offset bytes with
  | zero => rw [take_zero, store_nil]; rfl
  | succ n ih =>
    cases bytes with
    | nil => rw [take_nil, store_nil, zip_nil_right]; rfl
    | cons x bytes =>
      rw [take_succ_cons, store_cons, ih, blockPlaces_succ, zip_cons_cons, Heap.writeAll]

theorem zip_append_left {α β : Type*} (l l' : List α) (m : List β) :
    (l ++ l').zip m = l.zip m ++ l'.zip (m.drop l.length) := by
  induction l generalizing m with
  | nil => rfl
  | cons x l ih =>
    cases m with
    | nil => simp
    | cons y m => simp only [cons_append, zip_cons_cons, ih, length_cons, drop_succ_cons]

theorem zip_take_left {α β : Type*} (l : List α) (m : List β) :
    (l.take m.length).zip m = l.zip m := by
  induction l generalizing m with
  | nil => simp
  | cons x l ih =>
    cases m with
    | nil => simp
    | cons y m => simp only [length_cons, take_succ_cons, zip_cons_cons, ih]

def piecePlaces (piece : Chunk × ℕ × ℕ) : List (ℕ × ℕ) :=
  blockPlaces piece.1.data.addr (piece.1.offset + piece.2.1) piece.2.2

theorem subWriteLoop_takeWhile (pieces : List (Chunk × ℕ × ℕ)) (src : List UInt8) :
    (subWriteLoop h b pieces src).1 = h.writeAll
      (((pieces.takeWhile fun piece => piece.1.flags.writable).flatMap piecePlaces).zip src) := by
  induction pieces generalizing h b src with
  | nil => rfl
  | cons piece pieces ih =>
    obtain ⟨c, start, len⟩ := piece
    rw [subWriteLoop]
    by_cases hsrc : src.isEmpty = true
    · rw [if_pos hsrc, isEmpty_iff.1 hsrc, zip_nil_right]
      rfl
    · rw [if_neg hsrc, takeWhile_cons]
      cases hc : c.flags.writable with
      | true =>
        rw [getData_writable hc, if_pos rfl]
        simp only [ih]
        rw [store_take_eq, flatMap_cons, zip_append_left, writeAll_append]
        simp only [piecePlaces, length_blockPlaces]
      | false =>
        rw [getData_readonly hc, if_neg Bool.false_ne_true]
        rfl

theorem subWriteLoop_heap {pieces : List (Chunk × ℕ × ℕ)}
    (hw : ∀ piece ∈ pieces, piece.1.flags.writable = true) (src : List UInt8) :
    (subWriteLoop h b pieces src).1 = h.writeAll ((pieces.flatMap piecePlaces).zip src) := by
  rw [subWriteLoop_takeWhile, takeWhile_eq_self_iff.2 hw]

end WriteAll

/-! ## What is written -/

section Written

variable {h : Heap} {b : Vbuffer} {data : Sub} {lo hi : ℕ}

def Vbuffer.rangePlaces (b : Vbuffer) (lo hi : ℕ) : List (ℕ × ℕ) := (b.places.drop lo).take (hi - lo)

theorem length_rangePlaces (hhi : hi ≤ totalSize b.body) (hlt : lo < hi) :
    (b.rangePlaces lo hi).length = hi - lo := by
  have hlen : b.places.length = totalSize b.body :=
    length_flatMap_chunks fun c _ => length_chunk_places c
  rw [Vbuffer.rangePlaces, length_take, length_drop, hlen]
  omega

theorem byteAt_rangePlaces (hb : b.WF h) {p : ℕ × ℕ} (hp : p ∈ b.rangePlaces lo hi) :
    (h.byteAt p).isSome = true := by
  obtain ⟨c, hc, hpc⟩ := mem_flatMap.1 (mem_of_mem_drop (mem_of_mem_take hp))
  exact byteAt_isSome (hb.valid_body c hc) hpc

theorem nodup_blockPlaces (addr offset n : ℕ) : (blockPlaces addr offset n).Nodup := by
  refine List.Nodup.map (fun i j hij => ?_) nodup_range
  have := congrArg Prod.snd hij
  omega

theorem asnumberPlaces_cases (hb : b.WF h) (hc : b.Covers data lo hi) (hlt : lo < hi) :
    ∃ W, asnumberPlaces b data (hi - lo) = some W ∧ W.length = hi - lo ∧
      (W = b.rangePlaces lo hi ∨ W.Nodup) := by
  have ho := ordered_of_lt hb hc hlt
  unfold asnumberPlaces
  split_ifs with hflat
  · cases hmaps : vbufferMmaps b data with
    | nil =>
      have hslice := congrArg length (mmaps_slice (fun c _ => length_chunk_places c) hb hc ho)
      have hlen := length_rangePlaces hc.le.2 hlt
      rw [hmaps] at hslice
      unfold Vbuffer.rangePlaces Vbuffer.places at hlen
      rw [← hslice] at hlen
      simp at hlen
      omega
    | cons piece rest =>
      exact ⟨_, rfl, length_blockPlaces _ _ _, .inr (nodup_blockPlaces _ _ _)⟩
  · have hread := subReadPlaces_eq hb hc ho
    exact ⟨_, rfl, by rw [hread]; exact length_rangePlaces hc.le.2 hlt, .inl hread⟩

/-- **A number is written where it is read**, if it passes the test of its range. -/
theorem setnumber_eq (hb : b.WF h) (hc : b.Covers data lo hi) (hn : hi - lo ∈ [1, 2, 4, 8])
    (hw : ∀ piece ∈ vbufferMmaps b data, piece.1.flags.writable = true) {W : List (ℕ × ℕ)}
    (hW : asnumberPlaces b data (hi - lo) = some W) (bigendian : Bool) (num : ℤ) :
    (vbufferSetnumber h b data bigendian num).2.2 = numFits num ((hi - lo) * 8) ∧
      (vbufferSetnumber h b data bigendian num).1 = if numFits num ((hi - lo) * 8) then
          h.writeAll (W.zip (numberBytes (hi - lo) bigendian num))
        else h := by
  have hpos : 0 < hi - lo ∧ hi - lo ≤ 8 := by
    simp only [mem_cons, not_mem_nil, or_false] at hn
    omega
  have hlt : lo < hi := by omega
  have ho := ordered_of_lt hb hc hlt
  have hsize := subSize_spec hb hc ho
  unfold asnumberPlaces at hW
  unfold vbufferSetnumber
  simp only [hsize, decide_eq_false (not_lt.2 hpos.2), Bool.false_or, hn]
  cases hfits : numFits num ((hi - lo) * 8) with
  | false => exact ⟨rfl, rfl⟩
  | true =>
    simp only [Bool.not_true, Bool.false_eq_true, if_false, if_true]
    split_ifs at hW ⊢ with hflat
    · cases hmaps : vbufferMmaps b data with
      | nil => rw [hmaps] at hW; cases hW
      | cons piece rest =>
        obtain ⟨c, start, n⟩ := piece
        rw [hmaps] at hW
        obtain rfl := Option.some.inj hW
        have hcw : c.flags.writable = true := hw (c, start, n) (by rw [hmaps]; exact mem_cons_self)
        simp only [getData_writable hcw]
        refine ⟨trivial, ?_⟩
        rw [← store_take_eq, take_of_length_le (by rw [length_numberBytes])]
    · obtain rfl := Option.some.inj hW
      refine ⟨rfl, ?_⟩
      rw [subReadPlaces, vbufferSubWrite, if_pos hc.check, subWriteLoop_heap hw]
      have hzip := zip_take_left ((vbufferMmaps b data).flatMap piecePlaces)
        (numberBytes (hi - lo) bigendian num)
      rw [length_numberBytes] at hzip
      exact congrArg h.writeAll hzip.symm

end Written

/-! ## Numbers and their bytes -/

section Arithmetic

theorem numberBytes_succ (n : ℕ) (num : ℤ) : numberBytes (n + 1) false num =
      UInt8.ofNat (num % 256).toNat :: numberBytes n false (num / 256) := by
  simp only [numberBytes, range_succ_eq_map, map_cons, map_map, pow_zero,
    Int.ediv_one, Bool.false_eq_true, if_false]
  refine congrArg _ (map_congr_left fun i _ => ?_)
  rw [Function.comp_apply, Nat.succ_eq_add_one, pow_succ', Int.ediv_ediv_of_nonneg (by norm_num)]

theorem ofBytes_numberBytes (n : ℕ) (num : ℤ) :
    (ofBytes (numberBytes n false num) : ℤ) = num % 256 ^ n := by
  induction n generalizing num with
  | zero => simp [numberBytes, ofBytes]
  | succ n ih =>
    have hbyte : (UInt8.ofNat (num % 256).toNat).toNat = (num % 256).toNat := by
      rw [UInt8.toNat_ofNat']
      omega
    rw [numberBytes_succ, ofBytes, hbyte]
    push_cast
    rw [ih, Int.toNat_of_nonneg (by omega), pow_succ']
    have hsplit : num = num % 256 + 256 * (num / 256 % 256 ^ n) +
        256 * 256 ^ n * (num / 256 / 256 ^ n) := by
      have h1 := Int.emod_add_mul_ediv num 256
      have h2 := Int.emod_add_mul_ediv (num / 256) (256 ^ n)
      linear_combination -h1 - 256 * h2
    symm
    calc num % (256 * 256 ^ n) = (num % 256 + 256 * (num / 256 % 256 ^ n) +
          256 * 256 ^ n * (num / 256 / 256 ^ n)) % (256 * 256 ^ n) := by rw [← hsplit]
      _ = (num % 256 + 256 * (num / 256 % 256 ^ n)) % (256 * 256 ^ n) :=
        Int.add_mul_emod_self_left ..
      _ = num % 256 + 256 * (num / 256 % 256 ^ n) := Int.emod_eq_of_lt (by omega) (by omega)

theorem ofBytes_inj : ∀ {l l' : List UInt8}, l.length = l'.length → ofBytes l = ofBytes l' → l = l'
  | [], [], _, _ => rfl
  | x :: l, y :: l', hlen, h => by
    have hx := x.toNat_lt
    have hy := y.toNat_lt
    simp only [ofBytes] at h
    have hxy : x = y := UInt8.toNat_inj.1 (by omega)
    rw [hxy, ofBytes_inj (Nat.succ.inj hlen) (by omega)]

theorem ofBytes_lt : ∀ l : List UInt8, ofBytes l < 256 ^ l.length
  | [] => Nat.one_pos
  | x :: l => by
    have hx := x.toNat_lt
    have hl := ofBytes_lt l
    rw [ofBytes, length_cons, pow_succ]
    omega

variable {n : ℕ} {num : ℤ} {bytes : List UInt8}

theorem numberBytes_eq_iff (hlen : bytes.length = n)
    (h0 : 0 ≤ num) (hlt : num < 256 ^ n) (bigendian : Bool) :
    bytes = numberBytes n bigendian num ↔
      (ofBytes (if bigendian then bytes.reverse else bytes) : ℤ) = num := by
  have hone : ∀ l : List UInt8, l.length = n → (l = numberBytes n false num ↔
      (ofBytes l : ℤ) = num) := by
    intro l hl
    have hof := ofBytes_numberBytes n num
    rw [Int.emod_eq_of_lt h0 hlt] at hof
    refine ⟨fun h => h ▸ hof, fun h => ofBytes_inj (by rw [hl, length_numberBytes]) ?_⟩
    exact_mod_cast h.trans hof.symm
  cases bigendian with
  | false => exact hone bytes hlen
  | true =>
    rw [if_pos rfl, ← hone bytes.reverse (by rw [length_reverse, hlen])]
    exact reverse_eq_iff.symm

/-- A number of `n` bytes is read without a sign, or has its highest bit clear. -/
def ReadsUnsigned (bigHost bigendian : Bool) (n : ℕ) (num : ℤ) : Prop :=
  n = 1 ∨ n = 4 ∨ (bigendian ≠ bigHost ∧ n = 2) ∨ num < 2 ^ (8 * n - 1)

theorem bmod_eq_iff {m : ℕ} {bits : ℕ} (hbits : 0 < bits) (hm : m < 2 ^ bits) (h0 : 0 ≤ num) :
    (m : ℤ).bmod (2 ^ bits) = num ↔ (m : ℤ) = num ∧ num < 2 ^ (bits - 1) := by
  obtain ⟨k, rfl⟩ : ∃ k, bits = k + 1 := ⟨bits - 1, by omega⟩
  have hpow : (2 : ℤ) ^ (k + 1) = 2 * 2 ^ k := pow_succ' 2 k
  have hm' : (m : ℤ) < 2 * 2 ^ k := by rw [← hpow]; exact_mod_cast hm
  have hcast : ((2 ^ (k + 1) : ℕ) : ℤ) = 2 * 2 ^ k := by push_cast; exact hpow
  rw [Int.bmod, Int.emod_eq_of_lt (by omega) (by rw [hcast]; exact hm'), hcast, Nat.add_sub_cancel]
  split_ifs <;> omega

theorem numberOf_eq_iff (hlen : bytes.length = n)
    (hn : n ∈ [1, 2, 4, 8]) (h0 : 0 ≤ num) (hlt : num < 256 ^ n) (bigHost bigendian : Bool) :
    numberOf bigHost bigendian bytes = num ↔
      bytes = numberBytes n bigendian num ∧ ReadsUnsigned bigHost bigendian n num := by
  rw [numberBytes_eq_iff hlen h0 hlt]
  have hm := ofBytes_lt (if bigendian then bytes.reverse else bytes)
  have hlen' : (if bigendian then bytes.reverse else bytes).length = n := by
    split_ifs <;> simp [hlen]
  rw [hlen', show (256 : ℕ) = 2 ^ 8 from rfl, ← pow_mul] at hm
  simp only [numberOf, hlen, ReadsUnsigned]
  generalize ofBytes (if bigendian then bytes.reverse else bytes) = m at *
  split_ifs with hcase
  · have : n = 1 ∨ n = 4 ∨ bigendian ≠ bigHost ∧ n = 2 := by simpa using hcase
    exact ⟨fun h => ⟨h, by tauto⟩, And.left⟩
  · have : ¬(n = 1 ∨ n = 4 ∨ bigendian ≠ bigHost ∧ n = 2) := by simpa using hcase
    have hpos : 0 < n := by
      simp only [mem_cons, not_mem_nil, or_false] at hn
      omega
    rw [bmod_eq_iff (by omega) hm h0]
    exact and_congr_right fun _ => by tauto

end Arithmetic

/-! ## The round trip -/

/-- The number fits a field of `n` bytes, without a sign or as a negative number in two's
complement. -/
def FitsField (n : ℕ) (num : ℤ) : Prop :=
  (0 ≤ num ∧ num < 2 ^ (8 * n)) ∨ (num < 0 ∧ -2 ^ (8 * n - 1) ≤ num)

/-- A number is written if it fits, and then it is read back and no other byte has changed. No store
goes past the end of a block, to memory outside of the model. -/
structure SetsNumber (bigHost : Bool) (h : Heap) (b : Vbuffer) (data : Sub) (lo hi : ℕ)
    (bigendian : Bool) (num : ℤ) : Prop where
  succeeds : (vbufferSetnumber h b data bigendian num).2.2 = true ↔ FitsField (hi - lo) num
  reads : (vbufferSetnumber h b data bigendian num).2.2 = true → 0 ≤ num →
    vbufferAsnumber bigHost (vbufferSetnumber h b data bigendian num).1
      (vbufferSetnumber h b data bigendian num).2.1 data bigendian = .ret num
  outside : ∀ p ∉ b.rangePlaces lo hi,
    (vbufferSetnumber h b data bigendian num).1.byteAt p = h.byteAt p
  inBlocks : (vbufferSetnumber h b data bigendian num).2.2 = true →
    ∀ W, asnumberPlaces b data (hi - lo) = some W → ∀ p ∈ W, (h.byteAt p).isSome = true

/-- The test of `vbuffer_setnumber` is right. With 8 bytes the mask is 0; otherwise the absolute
value is compared, which lets negative numbers through that do not fit. -/
def TestRight (n : ℕ) (num : ℤ) : Prop :=
  if n = 8 then num = 0 else ¬(-2 ^ (8 * n) < num ∧ num < -2 ^ (8 * n - 1))

def WritesInside (h : Heap) (b : Vbuffer) (data : Sub) (lo hi : ℕ) (bytes : List UInt8) : Prop :=
  ∀ W, asnumberPlaces b data (hi - lo) = some W →
    ∀ p x, (p, x) ∈ W.zip bytes → p ∈ b.rangePlaces lo hi ∨ h.byteAt p = some x

def WritesOnce (b : Vbuffer) (data : Sub) (lo hi : ℕ) (bytes : List UInt8) : Prop :=
  ∀ W, asnumberPlaces b data (hi - lo) = some W →
    ∀ p x y, (p, x) ∈ W.zip bytes → (p, y) ∈ W.zip bytes → x = y

section RoundTrip

variable {h : Heap} {b : Vbuffer} {data : Sub} {lo hi n : ℕ} {num : ℤ}

theorem numFits_iff (hn : n ∈ [1, 2, 4, 8]) :
    numFits num (n * 8) = true ↔ if n = 8 then num = 0 else num.natAbs < 2 ^ (8 * n) := by
  rw [numFits, decide_eq_true_iff, Nat.and_two_pow_sub_one_eq_mod]
  simp only [mem_cons, not_mem_nil, or_false] at hn
  rcases hn with rfl | rfl | rfl | rfl <;> norm_num

theorem testRight_iff (hn : n ∈ [1, 2, 4, 8]) (hlo : -2 ^ 63 ≤ num) (hhi : num < 2 ^ 63) :
    (numFits num (n * 8) = true ↔ FitsField n num) ↔ TestRight n num := by
  rw [numFits_iff hn, FitsField, TestRight]
  simp only [mem_cons, not_mem_nil, or_false] at hn
  rcases hn with rfl | rfl | rfl | rfl <;> norm_num <;> omega

variable {α β : Type*}

variable {l : List α} {m : List β}

theorem mem_zip_of_mem (hlen : l.length = m.length) {x : α} (hx : x ∈ l) : ∃ y, (x, y) ∈ l.zip m :=
    by
  rw [← map_fst_zip hlen.le, mem_map] at hx
  obtain ⟨⟨_, y⟩, hy, rfl⟩ := hx
  exact ⟨y, hy⟩

variable {f : α → Option β}

theorem mapM_eq_iff (hlen : l.length = m.length) :
    l.mapM f = some m ↔ ∀ x y, (x, y) ∈ l.zip m → f x = some y := by
  induction l generalizing m with
  | nil =>
    obtain rfl := length_eq_zero_iff.1 hlen.symm
    simp
  | cons x l ih =>
    obtain _ | ⟨y, m⟩ := m
    · simp at hlen
    · have ih := ih (Nat.succ.inj hlen)
      have hcons : (x :: l).mapM f = some (y :: m) ↔ f x = some y ∧ l.mapM f = some m := by
        cases hx : f x <;> cases hl : l.mapM f <;> simp [hx, hl]
      rw [hcons, ih]
      simp only [zip_cons_cons, mem_cons, Prod.mk.injEq]
      constructor
      · rintro ⟨hx, hl⟩ a c (⟨rfl, rfl⟩ | hmem)
        · exact hx
        · exact hl a c hmem
      · intro hall
        exact ⟨hall x y (.inl ⟨rfl, rfl⟩), fun a c hmem => hall a c (.inr hmem)⟩

theorem length_of_mapM : ∀ {l : List α} {m : List β}, l.mapM f = some m → m.length = l.length
  | [], m, h => by
    obtain rfl : [] = m := by simpa using h
    rfl
  | x :: l, m, h => by
    rw [mapM_cons] at h
    obtain ⟨y, -, h⟩ := Option.bind_eq_some_iff.1 h
    obtain ⟨m', hm', h⟩ := Option.bind_eq_some_iff.1 h
    obtain rfl : y :: m' = m := by simpa using h
    rw [length_cons, length_cons, length_of_mapM hm']

variable {W : List (ℕ × ℕ)}

theorem asnumber_ret_iff (hb : b.WF h) (hc : b.Covers data lo hi)
    (hn : hi - lo ∈ [1, 2, 4, 8]) (hW : asnumberPlaces b data (hi - lo) = some W)
    (hlen : W.length = hi - lo) (h0 : 0 ≤ num) (hlt : num < 256 ^ (hi - lo))
    (bigHost bigendian : Bool) (h' : Heap) :
    vbufferAsnumber bigHost h' b data bigendian = .ret num ↔
      (∀ p x, (p, x) ∈ W.zip (numberBytes (hi - lo) bigendian num) → h'.byteAt p = some x) ∧
        ReadsUnsigned bigHost bigendian (hi - lo) num := by
  have hpos : 0 < hi - lo ∧ hi - lo ≤ 8 := by
    simp only [mem_cons, not_mem_nil, or_false] at hn
    omega
  have hsize := subSize_spec hb hc (ordered_of_lt hb hc (by omega))
  rw [← mapM_eq_iff (by rw [hlen, length_numberBytes])]
  unfold vbufferAsnumber
  simp only [hsize, hW, if_neg (not_lt.2 hpos.2), if_pos hn]
  cases hread : W.mapM h'.byteAt with
  | none => simp
  | some bytes =>
    have hbytes : bytes.length = hi - lo := (length_of_mapM hread).trans hlen
    simp only [Number.ret.injEq, Option.some.injEq]
    exact numberOf_eq_iff hbytes hn h0 hlt bigHost bigendian

theorem byteAt_writeAll_iff {l : List ((ℕ × ℕ) × UInt8)}
    (hin : ∀ p x, (p, x) ∈ l → (h.byteAt p).isSome = true) :
    (∀ p x, (p, x) ∈ l → (h.writeAll l).byteAt p = some x) ↔
      ∀ p x y, (p, x) ∈ l → (p, y) ∈ l → x = y := by
  constructor
  · intro hall p x y hx hy
    exact Option.some.inj ((hall p x hx).symm.trans (hall p y hy))
  · intro hone p x hx
    exact byteAt_writeAll hx (fun y hy => hone p y x hy hx) (hin p x hx)

theorem zip_once_of_nodup (hl : l.Nodup) (m : List β) :
    ∀ x y y', (x, y) ∈ l.zip m → (x, y') ∈ l.zip m → y = y' := by
  induction l generalizing m with
  | nil => simp
  | cons z l ih =>
    obtain ⟨hz, hl⟩ := nodup_cons.1 hl
    cases m with
    | nil => simp
    | cons w m =>
      intro x y y' hy hy'
      rw [zip_cons_cons, mem_cons, Prod.mk.injEq] at hy hy'
      rcases hy with ⟨rfl, rfl⟩ | hy <;> rcases hy' with ⟨h, rfl⟩ | hy'
      · rfl
      · exact absurd (of_mem_zip hy').1 hz
      · exact absurd (of_mem_zip hy).1 (h ▸ hz)
      · exact ih hl m x y y' hy hy'

/-- **Writing and reading a number.** In 1, 2, 4 or 8 writable bytes, the write succeeds for the
numbers that fit, a number that is not negative is read back and all other bytes stay, exactly if
the test of the range is right for the number and, when it fits, all places written belong to the
field or hold the byte already, and a number that is not negative is written with one value for each
place and read without a sign. -/
theorem setnumber_roundtrip_iff (bigHost bigendian : Bool) (hb : b.WF h) (hc : b.Covers data lo hi)
    (hn : hi - lo ∈ [1, 2, 4, 8])
    (hw : ∀ piece ∈ vbufferMmaps b data, piece.1.flags.writable = true) (hmin : -2 ^ 63 ≤ num)
    (hmax : num < 2 ^ 63) :
    SetsNumber bigHost h b data lo hi bigendian num ↔
      TestRight (hi - lo) num ∧ (FitsField (hi - lo) num →
        WritesInside h b data lo hi (numberBytes (hi - lo) bigendian num) ∧
        (0 ≤ num → WritesOnce b data lo hi (numberBytes (hi - lo) bigendian num) ∧
          ReadsUnsigned bigHost bigendian (hi - lo) num)) := by
  have hlt : lo < hi := by
    simp only [mem_cons, not_mem_nil, or_false] at hn
    omega
  obtain ⟨W, hW, hlen, hcases⟩ := asnumberPlaces_cases hb hc hlt
  obtain ⟨hok, hheap⟩ := setnumber_eq hb hc hn hw hW bigendian num
  have hremarked := (setnumber_wrote hb data bigendian num).remarked
  have hlen' : W.length = (numberBytes (hi - lo) bigendian num).length := by
    rw [hlen, length_numberBytes]
  have hbound : FitsField (hi - lo) num → num < 256 ^ (hi - lo) := by
    rw [show (256 : ℤ) = 2 ^ 8 from rfl, ← pow_mul]
    rintro (⟨-, h⟩ | ⟨h, -⟩)
    · exact h
    · exact h.trans (by positivity)
  constructor
  · intro hs
    have htest : TestRight (hi - lo) num := (testRight_iff hn hmin hmax).1 (hok ▸ hs.succeeds)
    refine ⟨htest, fun hfits => ?_⟩
    have hsucc := hs.succeeds.2 hfits
    rw [if_pos (hok ▸ hsucc)] at hheap
    have hin := hs.inBlocks hsucc W hW
    have hin' : ∀ p x, (p, x) ∈ W.zip (numberBytes (hi - lo) bigendian num) →
        (h.byteAt p).isSome = true := fun p x hp => hin p (of_mem_zip hp).1
    refine ⟨?_, fun h0 => ?_⟩
    · intro W' hW' p x hp
      obtain rfl := Option.some.inj (hW.symm.trans hW')
      refine or_iff_not_imp_left.2 fun hnot => ?_
      -- a place outside of the range is written once
      have hone := zip_once_of_nodup (hcases.resolve_left fun hrange =>
        hnot (hrange ▸ (of_mem_zip hp).1)) (numberBytes (hi - lo) bigendian num)
      rw [← hs.outside p hnot, hheap]
      exact (byteAt_writeAll_iff hin').2 hone p x hp
    · have hread := hs.reads hsucc h0
      rw [hremarked.asnumber, hheap] at hread
      obtain ⟨hall, hsign⟩ := (asnumber_ret_iff hb hc hn hW hlen h0 (hbound hfits) bigHost bigendian
        _).1 hread
      refine ⟨fun W' hW' => ?_, hsign⟩
      obtain rfl := Option.some.inj (hW.symm.trans hW')
      exact (byteAt_writeAll_iff hin').1 hall
  · rintro ⟨htest, hcond⟩
    have hsucc := (testRight_iff hn hmin hmax).2 htest
    have hinside : FitsField (hi - lo) num →
        ∀ p x, (p, x) ∈ W.zip (numberBytes (hi - lo) bigendian num) →
          p ∈ b.rangePlaces lo hi ∨ h.byteAt p = some x := fun hfits => (hcond hfits).1 W hW
    have hin : FitsField (hi - lo) num →
        ∀ p x, (p, x) ∈ W.zip (numberBytes (hi - lo) bigendian num) →
          (h.byteAt p).isSome = true := by
      intro hfits p x hp
      rcases hinside hfits p x hp with hp | hp
      · exact byteAt_rangePlaces hb hp
      · rw [hp]
        rfl
    refine ⟨hok ▸ hsucc, fun hs h0 => ?_, fun p hp => ?_, fun hs W' hW' p hp => ?_⟩
    · rw [hok] at hs
      have hfits := hsucc.1 hs
      obtain ⟨honce, hsign⟩ := (hcond hfits).2 h0
      rw [hremarked.asnumber, hheap, if_pos hs, asnumber_ret_iff hb hc hn hW hlen h0 (hbound hfits)]
      exact ⟨(byteAt_writeAll_iff (hin hfits)).2 (honce W hW), hsign⟩
    · rw [hheap]
      split_ifs with hs
      · have hfits := hsucc.1 hs
        by_cases hpW : p ∈ W
        · obtain ⟨x, hx⟩ := mem_zip_of_mem hlen' hpW
          -- the place is outside of the range: it holds the byte already
          have hold := (hinside hfits p x hx).resolve_left hp
          have hnodup := hcases.resolve_left fun hrange => hp (hrange ▸ hpW)
          rw [hold]
          exact (byteAt_writeAll_iff (hin hfits)).2
            (zip_once_of_nodup hnodup (numberBytes (hi - lo) bigendian num)) p x hx
        · exact byteAt_writeAll_of_notMem fun x hx => hpW (of_mem_zip hx).1
      · rfl
    · obtain rfl := Option.some.inj (hW.symm.trans hW')
      obtain ⟨x, hx⟩ := mem_zip_of_mem hlen' hp
      exact hin (hsucc.1 (hok ▸ hs)) p x hx

theorem writesInside_of_eq (hW : asnumberPlaces b data (hi - lo) = some (b.rangePlaces lo hi))
    (bytes : List UInt8) : WritesInside h b data lo hi bytes := by
  intro W hW' p x hp
  obtain rfl := Option.some.inj (hW.symm.trans hW')
  exact .inl (of_mem_zip hp).1

theorem writesOnce_of_nodup (hW : asnumberPlaces b data (hi - lo) = some W)
    (hnodup : W.Nodup) (bytes : List UInt8) : WritesOnce b data lo hi bytes := by
  intro W' hW'
  obtain rfl := Option.some.inj (hW.symm.trans hW')
  exact zip_once_of_nodup hnodup bytes

end RoundTrip

/-- The first two bytes of two chunks, between two iterators: 258 in network order. -/
theorem setnumber_roundtrip_inserted :
    SetsNumber false insertedHeap insertedBuffer (vbufferSubCreate insertedBuffer 0 (some 2)) 0 2
      true 258 := by
  have hplaces : asnumberPlaces insertedBuffer (vbufferSubCreate insertedBuffer 0 (some 2)) (2 - 0) =
      some (insertedBuffer.rangePlaces 0 2) := by decide
  have hc : insertedBuffer.Covers (vbufferSubCreate insertedBuffer 0 (some 2)) 0 2 :=
    subCreate_covers 0 2 insertedBuffer_wf
  refine (setnumber_roundtrip_iff false true insertedBuffer_wf hc (by decide) (by decide)
    (by norm_num) (by norm_num)).2 ⟨by norm_num [TestRight], fun _ => ⟨writesInside_of_eq hplaces _, fun _ =>
      ⟨writesOnce_of_nodup hplaces (by decide) _, ?_⟩⟩⟩
  exact .inr (.inr (.inl ⟨by decide, by decide⟩))

def zerosHeap : Heap := ⟨3, fun a => if a = 1 then replicate 8 0 else []⟩

def zerosBuffer : Vbuffer :=
  ⟨[⟨2, ⟨false, false, true, false⟩, .basic 1, 0, 8⟩], endChunk 0 true⟩

/-- The mask of 8 bytes is 0 and the number 1 is refused; the absolute value of -40000 is below 2 ^
16 and it is written into two bytes; 65535 in the order of the host is read back as -1; and over two
chunks of a sized range the byte behind the first one is overwritten. -/
theorem setnumber_roundtrip_fails :
    ¬SetsNumber false zerosHeap zerosBuffer (vbufferSubCreate zerosBuffer 0 (some 8)) 0 8 true 1 ∧
      ¬SetsNumber false zerosHeap zerosBuffer (vbufferSubCreate zerosBuffer 0 (some 2)) 0 2 true
        (-40000) ∧
      ¬SetsNumber false zerosHeap zerosBuffer (vbufferSubCreate zerosBuffer 0 (some 2)) 0 2 false
        65535 ∧
      ¬SetsNumber false insertedHeap insertedBuffer (.sized ⟨3, 0, 0, false⟩ 2) 0 2 true 258 := by
  refine ⟨fun hs => ?_, fun hs => ?_, fun hs => ?_, fun hs => ?_⟩
  · have hfits : FitsField (8 - 0) 1 := by norm_num [FitsField]
    exact absurd (hs.succeeds.2 hfits) (by decide)
  · have hwrong := hs.succeeds.1 (by decide)
    norm_num [FitsField] at hwrong
  · exact absurd (hs.reads (by decide) (by norm_num)) (by decide)
  · exact absurd (hs.outside (1, 1) (by decide)) (by decide)

end Haka
