import Haka.Vbuffer.SetBits

/-!
# Writes that report what they did

`vbuffer_setnumber`, `vbuffer_setbits` and `vbuffer_zero` return a boolean. This module says when it
tells whether the whole range was written, whatever the memory held before. `vbuffer_zero` returns
`check_error()`: true after an error, false when all went well (`zero_eq`).
-/

namespace Haka

open List

/-! ## `vbuffer_zero` -/

/-- The loop of `vbuffer_zero` over the pieces `vbuffer_mmap` returns, and whether it ended with the
error of a read-only chunk. -/
def zeroLoop (h : Heap) (b : Vbuffer) : List (Chunk × ℕ × ℕ) → Heap × Vbuffer × Bool
  | [] => (h, b, false)
  | (chunk, start, len) :: pieces =>
    match vbufferChunkGetData chunk true with
    | (_, .absolute _) => (h, b, true)
    | (chunk, .block addr offset) =>
      zeroLoop (h.store addr (offset + start) (replicate len 0)) (b.setChunk chunk) pieces

/-- The error "invalid buffer end" of `_vbuffer_sub_iterate`: the end is before the beginning in one
chunk. -/
def subIterateInvalid (b : Vbuffer) : Sub → Bool
  | .sized _ _ => false
  | .between begin «end» =>
    let (k, offset) := _vbufferIteratorFix b begin
    let (e, endoffset) := _vbufferIteratorFix b «end»
    !k.after.isEmpty && k.chunk.id == e.chunk.id && decide (endoffset < offset)

/-- `vbuffer_zero`; `error` says whether an error is pending: `check_error` returns that. -/
def vbufferZero (error : Bool) (h : Heap) (b : Vbuffer) (data : Sub) : Heap × Vbuffer × Bool :=
  if _vbufferSubCheck b data then
    let (h', b', failed) := zeroLoop h b (vbufferMmaps b data)
    (h', b', error || failed || subIterateInvalid b data)
  else (h, b, false)

section Zero

variable {h : Heap} {b : Vbuffer} {data : Sub} {lo hi : ℕ}

theorem zeroLoop_eq {pieces : List (Chunk × ℕ × ℕ)} (hpos : ∀ piece ∈ pieces, 0 < piece.2.2) {n : ℕ}
    (hn : (pieces.map fun piece => piece.2.2).sum ≤ n) :
    zeroLoop h b pieces = ((subWriteLoop h b pieces (replicate n 0)).1,
      (subWriteLoop h b pieces (replicate n 0)).2.1,
      !pieces.all fun piece => piece.1.flags.writable) := by
  induction pieces generalizing h b n with
  | nil => rfl
  | cons piece pieces ih =>
    obtain ⟨c, start, len⟩ := piece
    obtain ⟨hlen, hpos⟩ := forall_mem_cons.1 hpos
    replace hlen : 0 < len := hlen
    simp only [map_cons, sum_cons] at hn
    have hne : (replicate n (0 : UInt8)).isEmpty = false := by
      rw [isEmpty_replicate]
      exact decide_eq_false (by omega)
    rw [zeroLoop, subWriteLoop, if_neg (by rw [hne]; exact Bool.false_ne_true), all_cons]
    cases hc : c.flags.writable with
    | false =>
      rw [getData_readonly hc]
      rfl
    | true =>
      rw [getData_writable hc]
      simp only [take_replicate, drop_replicate, Nat.min_eq_left (show len ≤ n by omega),
        Bool.true_and]
      rw [ih hpos (show (pieces.map fun piece => piece.2.2).sum ≤ n - len by omega)]

section

variable (hb : b.WF h) (hc : b.Covers data lo hi) (ho : b.Ordered data)

include hb hc ho

theorem mmaps_sum :
    ((vbufferMmaps b data).map fun piece => piece.2.2).sum = hi - lo := by
  have hslice := congrArg length (mmaps_slice (fun c _ => length_chunk_places c) hb hc ho)
  have hlen : ∀ piece ∈ vbufferMmaps b data,
      (pieceOf Chunk.places piece).length = piece.2.2 := by
    intro piece hp
    rw [pieceOf, length_take, length_drop, length_chunk_places]
    exact Nat.min_eq_left (Nat.le_sub_of_add_le' (mmaps_mem hb data piece hp).2)
  rw [length_flatMap, map_congr_left hlen] at hslice
  have hle := hc.le
  rw [hslice, length_take, length_drop, length_flatMap_chunks fun c _ =>
    length_chunk_places c]
  omega

theorem writables_slice :
    (b.writables.drop lo).take (hi - lo) = (vbufferMmaps b data).flatMap
        fun piece => replicate piece.2.2 piece.1.flags.writable := by
  rw [Vbuffer.writables, ← mmaps_slice (fun c _ => length_replicate) hb hc ho]
  exact flatMap_congr fun piece hp => pieceOf_writable (mmaps_mem hb data piece hp).2

theorem all_writable_iff :
    ((vbufferMmaps b data).all fun piece => piece.1.flags.writable) = true ↔
      hi - lo ≤ b.writableFrom lo hi := by
  have hslice := writables_slice hb hc ho
  have hlength : ((b.writables.drop lo).take (hi - lo)).length = hi - lo := by
    rw [hslice, length_flatMap, ← mmaps_sum hb hc ho]
    simp
  rw [all_eq_true, Vbuffer.writableFrom]
  constructor
  · intro hall
    rw [takeWhile_eq_self_iff.2, hlength]
    rw [hslice]
    intro x hx
    obtain ⟨piece, hp, hxp⟩ := mem_flatMap.1 hx
    rw [eq_of_mem_replicate hxp]
    exact hall piece hp
  · intro hge piece hp
    have hself : ((b.writables.drop lo).take (hi - lo)).takeWhile id =
        (b.writables.drop lo).take (hi - lo) :=
      (takeWhile_sublist id).eq_of_length_le (by rw [hlength]; exact hge)
    have hmem : piece.1.flags.writable ∈ (b.writables.drop lo).take (hi - lo) := by
      have hpos := mmaps_pos b data piece hp
      rw [hslice]
      exact mem_flatMap.2 ⟨piece, hp, mem_replicate.2 ⟨hpos.ne', rfl⟩⟩
    exact takeWhile_eq_self_iff.1 hself _ hmem

theorem not_iterateInvalid :
    subIterateInvalid b data = false := by
  cases hc with
  | sized => rfl
  | @between begin «end» hbegin hend _ hle =>
    obtain ⟨P, M, T, off, endoffset, hat⟩ := between_spec hb hbegin hend hle ho
    unfold subIterateInvalid
    simp only [hat.atBegin, hat.atEnd]
    cases M with
    | nil =>
      have := hat.same rfl
      simp [this]
    | cons c M =>
      have hid := hat.endId
      rw [idsOf_cons, mem_cons, not_or] at hid
      have hne : (c.id == (Cut.mk (P ++ c :: M) T b.last).chunk.id) = false :=
        beq_eq_false_iff_ne.2 (Ne.symm hid.1)
      simp only [Cut.chunk, cons_append, headD_cons] at hne ⊢
      rw [hne]
      rfl

end

/-- **Zero.** The range is written up to the first read-only chunk. The result is true exactly if
there was an error before or there is such a chunk. -/
theorem zero_eq (error : Bool) (hb : b.WF h) (hc : b.Covers data lo hi) (ho : b.Ordered data) :
    (vbufferZero error h b data).1 = h.writeAll
        ((b.writtenPlaces lo hi).zip (replicate (hi - lo) 0)) ∧
      b.Remarked (vbufferZero error h b data).2.1 ∧
      ((vbufferZero error h b data).2.2 = true ↔
        error = true ∨ b.writableFrom lo hi < hi - lo) := by
  have hloop : zeroLoop h b (vbufferMmaps b data) = _ :=
    zeroLoop_eq (mmaps_pos b data) (mmaps_sum hb hc ho).le
  have hheap := subWrite_heap hb hc ho (replicate (hi - lo) 0)
  have hwrote := (subWrite_wrote hb data (replicate (hi - lo) 0)).remarked
  rw [vbufferSubWrite, if_pos hc.check] at hheap hwrote
  rw [vbufferZero, if_pos hc.check, hloop, not_iterateInvalid hb hc ho]
  refine ⟨hheap, hwrote, ?_⟩
  rw [← Nat.not_le, ← all_writable_iff hb hc ho]
  simp

end Zero

/-! ## All or nothing -/

def Heap.SameSizes (h : Heap) (m : ℕ → List UInt8) : Prop := ∀ a, (m a).length = (h.mem a).length

theorem Heap.SameSizes.wf {h : Heap} {m : ℕ → List UInt8} {b : Vbuffer} (hm : h.SameSizes m)
    (hb : b.WF h) : b.WF ⟨h.next, m⟩ := hb.of_lengths le_rfl hm

def contentAfter (call : Heap → Heap × Vbuffer × Bool) (h : Heap) : List UInt8 :=
  (call h).2.1.content (call h).1

/-- A call returns true exactly if afterwards the content is as asked for, whatever the memory held
before, and false only with the content as before. -/
structure AllOrNothing (h : Heap) (b : Vbuffer) (call : Heap → Heap × Vbuffer × Bool)
    (asked : List UInt8 → Prop) : Prop where
  reports : (call h).2.2 = true ↔ ∀ m, h.SameSizes m → asked (contentAfter call ⟨h.next, m⟩)
  nothing : (call h).2.2 = false → ∀ m, h.SameSizes m →
    contentAfter call ⟨h.next, m⟩ = b.content ⟨h.next, m⟩

section AllOrNothing

variable {h : Heap} {b : Vbuffer} {call : Heap → Heap × Vbuffer × Bool} {asked : List UInt8 → Prop}

theorem allOrNothing_of_true (hok : (call h).2.2 = true) : AllOrNothing h b call asked ↔
      ∀ m, h.SameSizes m → asked (contentAfter call ⟨h.next, m⟩) :=
  ⟨fun hall => hall.reports.1 hok, fun hasked => ⟨iff_of_true hok hasked, fun hno =>
    absurd (hok.symm.trans hno) Bool.noConfusion⟩⟩

theorem allOrNothing_of_idle (hno : (call h).2.2 = false)
    (hsame : ∀ m, h.SameSizes m → contentAfter call ⟨h.next, m⟩ = b.content ⟨h.next, m⟩) :
    AllOrNothing h b call asked ↔ ¬∀ m, h.SameSizes m → asked (b.content ⟨h.next, m⟩) := by
  have hcontent : (∀ m, h.SameSizes m → asked (contentAfter call ⟨h.next, m⟩)) ↔
      ∀ m, h.SameSizes m → asked (b.content ⟨h.next, m⟩) :=
    forall₂_congr fun m hm => by rw [hsame m hm]
  constructor
  · intro hall hasked
    exact absurd (hno.symm.trans (hall.reports.2 (hcontent.2 hasked))) Bool.noConfusion
  · intro hnot
    refine ⟨iff_of_false (by rw [hno]; exact Bool.false_ne_true) ?_, fun _ => hsame⟩
    rwa [hcontent]

end AllOrNothing

/-! ## Bytes that are stored -/

/-- Every byte of the range `R` has its place among those written, `W`, and the byte written there
last is the right one. -/
def StoredLast (W R : List (ℕ × ℕ)) (bytes : List UInt8) : Prop :=
  ∀ i < bytes.length, ∃ j, W[j]? = R[i]? ∧ bytes[j]? = bytes[i]? ∧
    ∀ j', j < j' → j' < bytes.length → W[j']? ≠ R[i]?

section Stored

variable {h : Heap} {b : Vbuffer} {lo hi : ℕ}

theorem exists_last (P : ℕ → Prop) (n : ℕ) :
    (∃ j < n, P j ∧ ∀ j', j < j' → j' < n → ¬P j') ∨ ∀ j < n, ¬P j := by
  induction n with
  | zero => exact .inr fun j hj => absurd hj (Nat.not_lt_zero j)
  | succ n ih =>
    by_cases hn : P n
    · exact .inl ⟨n, Nat.lt_succ_self n, hn, fun j' h1 h2 => by omega⟩
    · have hbelow : ∀ {j : ℕ}, j < n + 1 → P j → j < n := fun {j} hj hP =>
        lt_of_le_of_ne (Nat.le_of_lt_succ hj) fun heq => hn (heq ▸ hP)
      rcases ih with ⟨j, hj, hP, hlast⟩ | hnone
      · exact .inl ⟨j, by omega, hP, fun j' h1 h2 hP' => hlast j' h1 (hbelow h2 hP') hP'⟩
      · exact .inr fun j hj hP => hnone j (hbelow hj hP) hP

variable {W : List (ℕ × ℕ)} {q : ℕ}

variable {ws : List UInt8} {j : ℕ} {x : UInt8}

theorem content_writeAll_none (hb : b.WF h) (hnone : ∀ j < ws.length, W[j]? ≠ b.places[q]?) :
    (b.content (h.writeAll (W.zip ws)))[q]? = (b.content h)[q]? := by
  rw [getElem?_content (wf_writeAll hb _), getElem?_content hb]
  cases hp : b.places[q]? with
  | none => rfl
  | some p =>
    refine byteAt_writeAll_of_notMem fun y hy => ?_
    obtain ⟨j, hj⟩ := mem_iff_getElem?.1 hy
    rw [getElem?_zip_eq_some] at hj
    exact hnone j (List.getElem?_eq_some_iff.1 hj.2).1 (hj.1.trans hp.symm)

theorem getElem?_rangePlaces {i : ℕ} (hi' : i < hi - lo) :
    (b.rangePlaces lo hi)[i]? = b.places[lo + i]? := by
  rw [Vbuffer.rangePlaces, getElem?_take_of_lt hi', getElem?_drop]

/-- A range holds the bytes stored, whatever the memory held before, exactly if the last byte stored
at each of its places is the right one. -/
theorem range_stored_iff (hb : b.WF h) (hhi : hi ≤ totalSize b.body) {bytes : List UInt8}
    (hlen : bytes.length = hi - lo) :
    (∀ m, h.SameSizes m → ((b.content ((⟨h.next, m⟩ : Heap).writeAll (W.zip bytes))).drop lo).take
      (hi - lo) = bytes) ↔ StoredLast W (b.rangePlaces lo hi) bytes := by
  have hslice : ∀ (content : List UInt8) {i : ℕ}, i < hi - lo →
      ((content.drop lo).take (hi - lo))[i]? = content[lo + i]? := by
    intro content i hi'
    rw [getElem?_take_of_lt hi', getElem?_drop]
  constructor
  · intro hall i hi'
    rw [hlen] at hi'
    rw [getElem?_rangePlaces hi']
    have hfilled : ∀ x : UInt8, (b.content ((h.filled x).writeAll (W.zip bytes)))[lo + i]? =
        bytes[i]? := by
      intro x
      have hrange : _ = bytes := hall (h.filled x).mem fun a => length_replicate
      have hbyte := congrArg (fun l : List UInt8 => l[i]?) hrange
      simp only [hslice _ hi'] at hbyte
      exact hbyte
    rcases exists_last (fun j => W[j]? = b.places[lo + i]?) bytes.length with
      ⟨j, hj, hplace, hlast⟩ | hnone
    · refine ⟨j, hplace, ?_, hlast⟩
      rw [← hfilled 0, content_writeAll_last (content_filled hb 0).1 (by omega) hplace
        (getElem?_eq_getElem hj) hlast, getElem?_eq_getElem hj]
    · -- nothing is written there: the byte would be the one before
      have hbyte : ∀ x : UInt8, bytes[i]? = some x := by
        intro x
        obtain ⟨hbx, hcontent⟩ := content_filled hb x
        rw [← hfilled x, content_writeAll_none hbx hnone, hcontent,
          getElem?_replicate_of_lt (by omega)]
      exact absurd ((hbyte 0).symm.trans (hbyte 1)) (by decide)
  · intro hstored m hm
    have hbm := hm.wf hb
    refine ext_getElem? fun i => ?_
    by_cases hi' : i < hi - lo
    · obtain ⟨j, hplace, hbyte, hlast⟩ := hstored i (by omega)
      rw [getElem?_rangePlaces hi'] at hplace hlast
      rw [hslice _ hi', getElem?_eq_getElem (show i < bytes.length by omega)]
      rw [getElem?_eq_getElem (show i < bytes.length by omega)] at hbyte
      exact content_writeAll_last hbm (by omega) hplace hbyte hlast
    · rw [getElem?_eq_none (by rw [length_take]; omega), getElem?_eq_none (by omega)]

theorem storedLast_replicate {R : List (ℕ × ℕ)} {n : ℕ} :
    StoredLast W R (replicate n x) ↔ ∀ i < n, ∃ j < n, W[j]? = R[i]? := by
  unfold StoredLast
  rw [length_replicate]
  refine forall₂_congr fun i hi' => ?_
  rw [getElem?_replicate_of_lt hi']
  constructor
  · rintro ⟨j, hj, hx, -⟩
    have hlt := (List.getElem?_eq_some_iff.1 hx).1
    rw [length_replicate] at hlt
    exact ⟨j, hlt, hj⟩
  · rintro ⟨j, hj, hplace⟩
    rcases exists_last (fun j => W[j]? = R[i]?) n with ⟨j', hj', hj'p, hlast⟩ | hnone
    · exact ⟨j', hj'p, getElem?_replicate_of_lt hj', hlast⟩
    · exact absurd hplace (hnone j hj)

theorem writtenPlaces_eq_iff (hj : j < hi - lo) (hq : q < totalSize b.body) :
    (b.writtenPlaces lo hi)[j]? = b.places[q]? ↔
      j < b.writableFrom lo hi ∧ b.places[lo + j]? = b.places[q]? := by
  have hlength : b.places.length = totalSize b.body :=
    length_flatMap_chunks fun c _ => length_chunk_places c
  constructor
  · intro hplace
    rw [getElem?_eq_getElem (show q < b.places.length by omega)] at hplace ⊢
    have hlt := (List.getElem?_eq_some_iff.1 hplace).1
    rw [Vbuffer.writtenPlaces, length_take] at hlt
    exact ⟨by omega, getElem?_writtenPlaces_eq hplace⟩
  · rintro ⟨hw, hplace⟩
    rw [getElem?_writtenPlaces hj hw, hplace]

theorem not_all_hold (hb : b.WF h) (hlt : lo < hi) (hhi : hi ≤ totalSize b.body)
    (bytes : List UInt8) :
    ¬∀ m, h.SameSizes m → ((b.content ⟨h.next, m⟩).drop lo).take (hi - lo) = bytes := by
  intro hall
  have hbyte : ∀ x : UInt8, bytes[0]? = some x := by
    intro x
    have hrange : ((b.content (h.filled x)).drop lo).take (hi - lo) = bytes :=
      hall (h.filled x).mem fun a => length_replicate
    rw [← hrange, getElem?_take_of_lt (by omega), getElem?_drop, (content_filled hb x).2,
      getElem?_replicate_of_lt (by omega)]
  exact absurd ((hbyte 0).symm.trans (hbyte 1)) (by decide)

end Stored

/-! ## Numbers -/

/-- The places `vbuffer_setnumber` writes: from the pointer to the first piece on if the range is
taken to be flat; `none` when that is `NULL`. -/
def numberTarget (b : Vbuffer) (data : Sub) (lo hi : ℕ) : Option (List (ℕ × ℕ)) :=
  if vbufferSubIsflat b data then
    match vbufferMmaps b data with
    | [] => none
    | (c, start, _) :: _ =>
      if c.flags.writable then some (blockPlaces c.data.addr (c.offset + start) (hi - lo)) else none
  else some (b.writtenPlaces lo hi)

def AskedNumber (lo hi : ℕ) (bigendian : Bool) (num : ℤ) (content : List UInt8) : Prop :=
  lo < hi ∧ FitsField (hi - lo) num ∧
    (content.drop lo).take (hi - lo) = numberBytes (hi - lo) bigendian num

section Number

variable {h : Heap} {b : Vbuffer} {data : Sub} {lo hi : ℕ} {bigendian : Bool} {num : ℤ}

theorem numFits_iff_lt (num : ℤ) (bits : ℕ) :
    numFits num bits = true ↔ num.natAbs < 2 ^ (bits % 64) := by
  rw [numFits, decide_eq_true_iff, Nat.and_two_pow_sub_one_eq_mod]
  exact ⟨fun heq => heq ▸ Nat.mod_lt _ (Nat.two_pow_pos _), Nat.mod_eq_of_lt⟩

theorem Vbuffer.writableFrom_le (b : Vbuffer) (lo hi : ℕ) : b.writableFrom lo hi ≤ hi - lo :=
  ((takeWhile_sublist id).length_le).trans (length_take_le _ _)

theorem setnumber_spec (hb : b.WF h) (hc : b.Covers data lo hi) (ho : b.Ordered data)
    (bigendian : Bool) (num : ℤ) :
    ((vbufferSetnumber h b data bigendian num).1, (vbufferSetnumber h b data bigendian num).2.2) =
      (if hi - lo ∈ [1, 2, 4, 8] ∧ numFits num ((hi - lo) * 8) = true then
        numberTarget b data lo hi else none).elim (h, false) fun W =>
          (h.writeAll (W.zip (numberBytes (hi - lo) bigendian num)), true) := by
  unfold vbufferSetnumber numberTarget
  simp only [subSize_spec hb hc ho]
  cases hfits : numFits num ((hi - lo) * 8) with
  | false => simp
  | true =>
    by_cases hin : hi - lo ∈ [1, 2, 4, 8]
    · have hle : ¬hi - lo > 8 := by
        simp only [mem_cons, not_mem_nil, or_false] at hin
        omega
      simp only [hle, decide_false, Bool.not_true, Bool.or_self, Bool.false_eq_true, if_false, hin,
        and_self, if_true]
      split_ifs with hflat
      · cases hmaps : vbufferMmaps b data with
        | nil => rfl
        | cons piece rest =>
          obtain ⟨c, start, n⟩ := piece
          cases hw : c.flags.writable with
          | false => simp [getData_readonly hw, hw]
          | true =>
            simp only [getData_writable hw, if_true, Option.elim_some, hw]
            rw [← store_take_eq, take_of_length_le (by rw [length_numberBytes])]
      · exact Prod.ext (subWrite_heap hb hc ho _) rfl
    · simp only [hin, if_false, false_and, Option.elim_none]
      split_ifs
      · rfl
      · cases vbufferMmaps b data with
        | nil => rfl
        | cons piece rest =>
          dsimp only
          split <;> rfl
      · rfl

/-- **Numbers.** `vbuffer_setnumber` reports what it did exactly if a number it accepts and can
write fits the range and the bytes stored are those of the range. -/
theorem number_reports_iff (hb : b.WF h) (hc : b.Covers data lo hi) (ho : b.Ordered data)
    (bigendian : Bool) (num : ℤ) :
    AllOrNothing h b (fun h => vbufferSetnumber h b data bigendian num)
        (AskedNumber lo hi bigendian num) ↔
      (hi - lo ∈ [1, 2, 4, 8] → num.natAbs < 2 ^ ((hi - lo) * 8 % 64) →
        ∀ W, numberTarget b data lo hi = some W → FitsField (hi - lo) num ∧
          StoredLast W (b.rangePlaces lo hi) (numberBytes (hi - lo) bigendian num)) := by
  have hhi := hc.le.2
  have hcontent : ∀ m, h.SameSizes m →
      contentAfter (fun h => vbufferSetnumber h b data bigendian num) ⟨h.next, m⟩ =
        b.content (vbufferSetnumber ⟨h.next, m⟩ b data bigendian num).1 := fun m hm =>
    (setnumber_wrote (hm.wf hb) data bigendian num).remarked.content _
  have hspec := fun m (hm : h.SameSizes m) =>
    Prod.ext_iff.1 (setnumber_spec (hm.wf hb) hc ho bigendian num)
  cases htarget : (if hi - lo ∈ [1, 2, 4, 8] ∧ numFits num ((hi - lo) * 8) = true then
    numberTarget b data lo hi else none) with
  | some W =>
    rw [htarget] at hspec
    obtain ⟨⟨hin, hfits⟩, hW⟩ := Option.ite_none_right_eq_some.1 htarget
    have hlt : lo < hi := by
      simp only [mem_cons, not_mem_nil, or_false] at hin
      omega
    rw [allOrNothing_of_true (hspec h.mem fun a => rfl).2]
    have hasked : (∀ m, h.SameSizes m → AskedNumber lo hi bigendian num
        (contentAfter (fun h => vbufferSetnumber h b data bigendian num) ⟨h.next, m⟩)) ↔
        FitsField (hi - lo) num ∧
          StoredLast W (b.rangePlaces lo hi) (numberBytes (hi - lo) bigendian num) := by
      rw [← range_stored_iff hb hhi (length_numberBytes ..)]
      constructor
      · intro hall
        refine ⟨(hall h.mem fun a => rfl).2.1, fun m hm => ?_⟩
        have hrange := (hall m hm).2.2
        rwa [hcontent m hm, (hspec m hm).1] at hrange
      · rintro ⟨hfield, hall⟩ m hm
        refine ⟨hlt, hfield, ?_⟩
        rw [hcontent m hm, (hspec m hm).1]
        exact hall m hm
    rw [hasked]
    constructor
    · rintro hright - - W' hW'
      rwa [← Option.some.inj (hW.symm.trans hW')]
    · intro hright
      exact hright hin ((numFits_iff_lt ..).1 hfits) W hW
  | none =>
    rw [htarget] at hspec
    rw [allOrNothing_of_idle (hspec h.mem fun a => rfl).2 fun m hm => by
      rw [hcontent m hm, (hspec m hm).1]
      rfl]
    refine iff_of_true ?_ ?_
    · intro hall
      have hlt := (hall h.mem fun a => rfl).1
      exact not_all_hold hb hlt hhi _ fun m hm => (hall m hm).2.2
    · intro hin hlt W hW
      rw [if_pos ⟨hin, (numFits_iff_lt ..).2 hlt⟩, hW] at htarget
      cases htarget

/-- **Zero.** `vbuffer_zero` reports what it did exactly if there was an error before or a read-only
chunk in the range, and every byte of the range is nevertheless written. -/
theorem zero_reports_iff (error : Bool) (hb : b.WF h) (hc : b.Covers data lo hi)
    (ho : b.Ordered data) :
    AllOrNothing h b (fun h => vbufferZero error h b data)
        (fun content => (content.drop lo).take (hi - lo) = replicate (hi - lo) 0) ↔
      (error = true ∨ b.writableFrom lo hi < hi - lo) ∧
        ∀ i < hi - lo, ∃ j < b.writableFrom lo hi, b.places[lo + j]? = b.places[lo + i]? := by
  have hhi := hc.le.2
  have hcontent : ∀ m, h.SameSizes m →
      contentAfter (fun h => vbufferZero error h b data) ⟨h.next, m⟩ = b.content
        ((⟨h.next, m⟩ : Heap).writeAll ((b.writtenPlaces lo hi).zip (replicate (hi - lo) 0))) := by
    intro m hm
    obtain ⟨hheap, hremarked, -⟩ := zero_eq error (hm.wf hb) hc ho
    rw [contentAfter, hremarked.content, hheap]
  have hwritten : (∀ m, h.SameSizes m →
      ((contentAfter (fun h => vbufferZero error h b data) ⟨h.next, m⟩).drop lo).take (hi - lo) =
        replicate (hi - lo) 0) ↔
      ∀ i < hi - lo, ∃ j < b.writableFrom lo hi, b.places[lo + j]? = b.places[lo + i]? := by
    rw [forall₂_congr fun m hm => by rw [hcontent m hm],
      range_stored_iff hb hhi length_replicate, storedLast_replicate]
    refine forall₂_congr fun i hi' => exists_congr fun j => ?_
    rw [getElem?_rangePlaces hi']
    constructor
    · rintro ⟨hj, hplace⟩
      exact (writtenPlaces_eq_iff hj (by omega)).1 hplace
    · rintro ⟨hj, hplace⟩
      have hle := b.writableFrom_le lo hi
      exact ⟨by omega, (writtenPlaces_eq_iff (by omega) (by omega)).2 ⟨hj, hplace⟩⟩
  have hresult := (zero_eq error hb hc ho).2.2
  by_cases hok : (vbufferZero error h b data).2.2 = true
  · rw [allOrNothing_of_true hok, hwritten]
    exact (and_iff_right (hresult.1 hok)).symm
  · -- all is written, and false returned
    have hno : ¬(error = true ∨ b.writableFrom lo hi < hi - lo) := fun herror =>
      hok (hresult.2 herror)
    refine iff_of_false (fun hall => hok (hall.reports.2 (hwritten.2 fun i hi' => ?_)))
      fun hright => hno hright.1
    exact ⟨i, lt_of_lt_of_le hi' (not_lt.1 fun hlt => hno (.inr hlt)), rfl⟩

end Number

/-! ## Bits -/

/-- The number fits a field of `bits` bits, without a sign or as a negative number in two's
complement. -/
def FitsBits (bits : ℕ) (num : ℤ) : Prop :=
  (0 ≤ num ∧ num < 2 ^ bits) ∨ (num < 0 ∧ -2 ^ bits ≤ 2 * num)

/-- The field is part of the range and holds a number that fits it, from the highest bit on or from
the lowest. -/
def AskedBits (lo hi o bits : ℕ) (big : Bool) (num : ℤ) (content : List UInt8) : Prop :=
  o + bits ≤ 8 * (hi - lo) ∧ FitsBits bits num ∧ ∀ i < bits,
    bitOf big content (8 * lo + o + i) = some (numBit num (if big then bits - 1 - i else i))

section NumBit

variable {i : ℕ}

theorem writeBits_field_bit (big : Bool) {bytes : List UInt8} {o bits : ℕ} (hkept : BitsKept o bits)
    (hlen : (o + bits + 7) / 8 ≤ bytes.length) (num : ℤ) (hi : i < bits) :
    bitOf big (writeBits big bytes o bits num) (o + i) =
      some (numBit num (if big then bits - 1 - i else i)) := by
  obtain ⟨y, hy⟩ : ∃ y, (writeBits big bytes o bits num)[(o + i) / 8]? = some y :=
    ⟨_, getElem?_eq_getElem (by rw [length_writeBits hlen]; omega)⟩
  rw [bitOf, hy, Option.map_some, Option.some.injEq]
  rw [writeBits_getElem? (by omega) hlen] at hy
  rcases hkept with ho | ⟨ho, hend⟩
  · rw [show o / 8 = 0 by omega, Nat.sub_zero] at hy
    exact setbitsLoop_field_bit big _ num ho hi hy
  · obtain ⟨x, rest, hx⟩ := fieldBytes_cons hlen (by omega)
    rw [hx, setbitsLoop_large x rest (by omega), show (o + i) / 8 - o / 8 = 0 by omega,
      getElem?_cons_zero, Option.some.injEq] at hy
    have hbit := setbits_field_bit x big (show o % 32 + bits ≤ 8 by omega) num hi
    rw [show (o + i) % 8 = o % 32 + i by omega, ← hy, hbit]

end NumBit

/-- When `vbuffer_setbits` reports what it does with every number that fits. A field that is not
part of the range must not be asked for. One in the first 8 bytes must be writable up to its end,
have all its bits written, and each byte at a place of its own. Of 64 bits only 0 is accepted, for
which places may be shared. -/
def BitsReported (b : Vbuffer) (lo hi o bits : ℕ) : Prop :=
  bits ≤ 64 → o + bits ≤ 8 * (hi - lo) ∧
    if bits = 0 then o ≤ 64 ∨ o = 8 * (hi - lo)
    else (o + bits + 7) / 8 ≤ 8 →
      if bits = 64 then
        ∀ i < 8, ∃ j < 8, j < b.writableFrom lo hi ∧ b.places[lo + j]? = b.places[lo + i]?
      else (o + bits + 7) / 8 ≤ b.writableFrom lo hi ∧ BitsKept o bits ∧
        ∀ k j, o / 8 ≤ k → k < j → j < (o + bits + 7) / 8 →
          b.places[lo + j]? ≠ b.places[lo + k]?

section Bits

variable {h : Heap} {b : Vbuffer} {data : Sub} {lo hi o bits : ℕ} {big : Bool} {num : ℤ}

theorem setbits_result (hb : b.WF h) (hc : b.Covers data lo hi) (ho : b.Ordered data)
    (o bits : ℕ) (big : Bool) (num : ℤ) :
    (vbufferSetbits h b data o bits big num).2.2 = true ↔
      bits ≤ 64 ∧ numFits num bits = true ∧
        (o / 8 < hi - lo → (o + bits + 7) / 8 ≤ hi - lo → (o + bits + 7) / 8 ≤ 8) := by
  unfold vbufferSetbits
  simp only [subSize_spec hb hc ho]
  by_cases hbits : bits ≤ 64
  · cases hfits : numFits num bits with
    | false => simp
    | true =>
      rw [if_neg (by simp; omega)]
      by_cases hout : hi - lo ≤ o / 8 ∨ hi - lo < (o + bits + 7) / 8
      · rw [if_pos (by simpa using hout)]
        exact iff_of_true rfl ⟨hbits, rfl, fun h1 h2 => by omega⟩
      · rw [if_neg (by simpa using hout)]
        split_ifs with hlong
        · exact iff_of_false nofun fun hright => by
            omega
        · exact iff_of_true rfl ⟨hbits, rfl, fun _ _ => by omega⟩
  · rw [if_pos (by simp; omega)]
    exact iff_of_false nofun fun hright => hbits hright.1

theorem setbits_idle (hb : b.WF h) (hc : b.Covers data lo hi) (ho : b.Ordered data)
    (hno : (vbufferSetbits h b data o bits big num).2.2 = false) :
    (vbufferSetbits h b data o bits big num).1 = h := by
  unfold vbufferSetbits at hno ⊢
  simp only [subSize_spec hb hc ho] at hno ⊢
  split_ifs at hno ⊢ with h1 h2 h3
  · rfl
  · rfl

theorem numFits_of_fits (hbits : bits ≤ 63) (hfits : FitsBits bits num) :
    numFits num bits = true := by
  rw [numFits_iff_lt, Nat.mod_eq_of_lt (by omega)]
  have hlt : |num| < 2 ^ bits := by
    rcases hfits with ⟨h0, h1⟩ | ⟨h0, h1⟩
    · rwa [abs_of_nonneg h0]
    · rw [abs_of_neg h0]
      omega
  rw [Int.abs_eq_natAbs] at hlt
  exact_mod_cast hlt

theorem fitsBits_zero (bits : ℕ) : FitsBits bits 0 := .inl ⟨le_rfl, by positivity⟩

theorem contentAfter_setbits (hb : b.WF h) (data : Sub) (o bits : ℕ) (big : Bool) (num : ℤ) :
    contentAfter (fun h => vbufferSetbits h b data o bits big num) h =
      b.content (vbufferSetbits h b data o bits big num).1 :=
  (setbits_wrote hb data o bits big num).remarked.content _

theorem bitOf_replicate (big : Bool) {N n : ℕ} (hn : n < 8 * N) (x : UInt8) :
    bitOf big (replicate N x) n = some (x.toNat.testBit (if big then 7 - n % 8 else n % 8)) := by
  rw [bitOf, getElem?_replicate_of_lt (by omega)]
  rfl

theorem not_all_asked (hb : b.WF h) (hhi : hi ≤ totalSize b.body) (hpos : 0 < bits) :
    ¬∀ m, h.SameSizes m → AskedBits lo hi o bits big num (b.content ⟨h.next, m⟩) := by
  intro hall
  have hbit : ∀ x : UInt8, x.toNat.testBit (if big then 7 - (8 * lo + o + 0) % 8 else
      (8 * lo + o + 0) % 8) = numBit num (if big then bits - 1 - 0 else 0) := by
    intro x
    have hasked : AskedBits lo hi o bits big num (b.content (h.filled x)) :=
      hall (h.filled x).mem fun a => length_replicate
    have hone := hasked.2.2 0 hpos
    have hin := hasked.1
    rw [(content_filled hb x).2, bitOf_replicate big (by omega), Option.some.injEq] at hone
    exact hone
  have hsame := (hbit 0).trans (hbit 255).symm
  have hones : ∀ l < 8, (255 : UInt8).toNat.testBit l = true := by decide
  rw [hones _ (by split <;> omega)] at hsame
  simp at hsame

theorem setbits_refused (hb : b.WF h) (hc : b.Covers data lo hi) (ho : b.Ordered data)
    {asked : List UInt8 → Prop} (hno : (vbufferSetbits h b data o bits big num).2.2 = false) :
    AllOrNothing h b (fun h => vbufferSetbits h b data o bits big num) asked ↔
      ¬∀ m, h.SameSizes m → asked (b.content ⟨h.next, m⟩) := by
  refine allOrNothing_of_idle hno fun m hm => ?_
  have hno' : (vbufferSetbits ⟨h.next, m⟩ b data o bits big num).2.2 = false := by
    rw [← Bool.not_eq_true, setbits_result (hm.wf hb) hc ho, ← setbits_result hb hc ho o bits big,
      hno]
    exact Bool.false_ne_true
  rw [contentAfter_setbits (hm.wf hb), setbits_idle (hm.wf hb) hc ho hno']

theorem bits_misfit_iff (hb : b.WF h) (hc : b.Covers data lo hi) (ho : b.Ordered data)
    (hmisfit : ¬FitsBits bits num) :
    AllOrNothing h b (fun h => vbufferSetbits h b data o bits big num)
        (AskedBits lo hi o bits big num) ↔
      ¬(bits ≤ 64 ∧ num.natAbs < 2 ^ (bits % 64) ∧
        (o + bits ≤ 8 * (hi - lo) → (o + bits + 7) / 8 ≤ 8)) := by
  have hresult := setbits_result hb hc ho o bits big num
  rw [numFits_iff_lt] at hresult
  have hpos : bits ≤ 64 → num.natAbs < 2 ^ (bits % 64) → 0 < bits := by
    intro _ hlt
    by_contra hzero
    obtain rfl : bits = 0 := by omega
    obtain rfl : num = 0 := by simpa using hlt
    exact hmisfit (fitsBits_zero 0)
  have hresult' : (vbufferSetbits h b data o bits big num).2.2 = true ↔
      bits ≤ 64 ∧ num.natAbs < 2 ^ (bits % 64) ∧
        (o + bits ≤ 8 * (hi - lo) → (o + bits + 7) / 8 ≤ 8) := by
    rw [hresult]
    refine and_congr_right fun h1 => and_congr_right fun h2 => ?_
    constructor
    · exact fun hright hle => hright (by omega) (by omega)
    · exact fun hright _ hle => hright (by omega)
  rw [← hresult', Bool.not_eq_true]
  constructor
  · intro hall
    by_contra hok
    rw [Bool.not_eq_false] at hok
    exact hmisfit (hall.reports.1 hok h.mem fun a => rfl).2.1
  · intro hno
    exact (setbits_refused hb hc ho hno).2 fun hall => hmisfit (hall h.mem fun a => rfl).2.1

theorem numBit_zero (i : ℕ) : numBit 0 i = false := by simp [numBit]

theorem numBit_two_pow (t : ℕ) : numBit ((2 ^ t : ℕ) : ℤ) t = true := by
  rw [numBit, decide_eq_true_iff]
  push_cast
  rw [Int.ediv_self (by positivity)]
  rfl

theorem told_of_asked (hf : FieldIn h b data lo hi o bits) (hbits : bits ≤ 63)
    (hall : ∀ v : ℕ, v < 2 ^ bits → AskedBits lo hi o bits big v
      (b.content (vbufferSetbits h b data o bits big v).1)) : BitsTold h b lo hi o bits big := by
  intro t ht heq
  have ht' : 2 ^ t < 2 ^ bits := Nat.pow_lt_pow_right (by omega) ht
  have h0 : 0 < 2 ^ bits := Nat.two_pow_pos bits
  have hasked := hall _ ht'
  have hasked0 := hall 0 h0
  rw [(setbits_eq hf (numFits_of_lt (by omega) ht')).2, heq] at hasked
  rw [(setbits_eq hf (numFits_of_lt (by omega) h0)).2] at hasked0
  -- the position of the bit `t`
  have hone := hasked.2.2 (if big then bits - 1 - t else t) (by split <;> omega)
  rw [hasked0.2.2 _ (by split <;> omega)] at hone
  have hindex : (if big then bits - 1 - (if big then bits - 1 - t else t)
      else (if big then bits - 1 - t else t)) = t := by
    cases big with
    | true =>
      simp only [if_true]
      omega
    | false => rfl
  rw [hindex, numBit_two_pow, Nat.cast_zero, numBit_zero] at hone
  cases hone

theorem bits_written_iff (hf : FieldIn h b data lo hi o bits) (hbits : bits ≤ 63) :
    (∀ num, FitsBits bits num → ∀ m, h.SameSizes m → AskedBits lo hi o bits big num
        (b.content (vbufferSetbits ⟨h.next, m⟩ b data o bits big num).1)) ↔
      (o + bits + 7) / 8 ≤ b.writableFrom lo hi ∧ BitsKept o bits ∧
        ∀ k j, o / 8 ≤ k → k < j → j < (o + bits + 7) / 8 →
          b.places[lo + j]? ≠ b.places[lo + k]? := by
  constructor
  · intro hall
    have htold : BitsTold h b lo hi o bits big := told_of_asked hf hbits fun v hv =>
      hall v (.inl ⟨Int.natCast_nonneg v, by exact_mod_cast hv⟩) h.mem fun a => rfl
    exact ⟨htold.written hf, htold.kept hf, fun k j => htold.places_ne hf⟩
  · rintro ⟨hw, hkept, hplaces⟩ num hfits m hm
    obtain ⟨hb, hc, hpos, hle⟩ := hf
    have hfm : FieldIn ⟨h.next, m⟩ b data lo hi o bits := ⟨hm.wf hb, hc, hpos, hle⟩
    refine ⟨by omega, hfits, fun i hi' => ?_⟩
    have hbyte : (b.content (vbufferSetbits ⟨h.next, m⟩ b data o bits big
        num).1)[lo + (o + i) / 8]? = _ :=
      content_setbits_written hfm hw (numFits_of_fits hbits hfits) (by omega)
        fun j hkj hj => hplaces _ j (by omega) hkj hj
    rw [← writeBits_field_bit big hkept (field_le_length hfm) num hi', bitOf, bitOf, ← hbyte,
      show (8 * lo + o + i) / 8 = lo + (o + i) / 8 by omega,
      show (8 * lo + o + i) % 8 = (o + i) % 8 by omega]

/-! ### The field of 64 bits -/

theorem writeBits_zero (big : Bool) {bytes : List UInt8} (hlen : 8 ≤ bytes.length) :
    writeBits big bytes 0 64 0 = replicate 8 0 := by
  have hlength : (writeBits big bytes 0 64 0).length = 8 := length_writeBits (by omega) 0
  refine ext_getElem? fun k => ?_
  by_cases hk : k < 8
  · refine getElem?_eq_of_bitOf big fun l hl => ?_
    have hbit := writeBits_field_bit big (.inl (by omega))
      (show (0 + 64 + 7) / 8 ≤ bytes.length by omega) 0 (show 8 * k + l < 64 by omega)
    rw [Nat.zero_add] at hbit
    rw [hbit, bitOf_replicate big (by omega), numBit_zero]
    simp
  · rw [getElem?_eq_none (by omega), getElem?_eq_none (by rw [length_replicate]; omega)]

theorem byte_zero_iff (big : Bool) (content : List UInt8) (q : ℕ) :
    (∀ l < 8, bitOf big content (8 * q + l) = some false) ↔ content[q]? = some 0 := by
  constructor
  · intro hall
    rw [← getElem?_replicate_of_lt (Nat.lt_succ_self q)]
    refine getElem?_eq_of_bitOf big fun l hl => ?_
    rw [hall l hl, bitOf_replicate big (by omega)]
    simp
  · intro hx l hl
    rw [bitOf, show (8 * q + l) / 8 = q by omega, hx]
    simp

theorem askedBits_zero_iff (big : Bool) (hle : lo + 8 ≤ hi) (content : List UInt8) :
    AskedBits lo hi 0 64 big 0 content ↔
      (content.drop lo).take (lo + 8 - lo) = replicate (lo + 8 - lo) 0 := by
  rw [Nat.add_sub_cancel_left]
  have hbytes : AskedBits lo hi 0 64 big 0 content ↔ ∀ k < 8, content[lo + k]? = some 0 := by
    unfold AskedBits
    simp only [numBit_zero, Nat.add_zero]
    rw [and_iff_right (by omega), and_iff_right (fitsBits_zero 64)]
    constructor
    · intro hall k hk
      refine (byte_zero_iff big content _).1 fun l hl => ?_
      rw [show 8 * (lo + k) + l = 8 * lo + (8 * k + l) by omega]
      exact hall _ (by omega)
    · intro hall i hi'
      have hone := (byte_zero_iff big content _).2 (hall (i / 8) (by omega)) (i % 8) (by omega)
      rwa [show 8 * (lo + i / 8) + i % 8 = 8 * lo + i by omega] at hone
  rw [hbytes]
  constructor
  · intro hall
    refine ext_getElem? fun k => ?_
    by_cases hk : k < 8
    · rw [getElem?_take_of_lt hk, getElem?_drop, hall k hk, getElem?_replicate_of_lt hk]
    · rw [getElem?_eq_none (by rw [length_take]; omega),
        getElem?_eq_none (by rw [length_replicate]; omega)]
  · intro hrange k hk
    have hbyte := congrArg (fun l : List UInt8 => l[k]?) hrange
    simp only [getElem?_take_of_lt hk, getElem?_drop, getElem?_replicate_of_lt hk] at hbyte
    exact hbyte

theorem zeros_written_iff (hb : b.WF h) (hc : b.Covers data lo hi) (hle : lo + 8 ≤ hi) :
    (∀ m, h.SameSizes m → AskedBits lo hi 0 64 big 0
        (b.content (vbufferSetbits ⟨h.next, m⟩ b data 0 64 big 0).1)) ↔
      ∀ i < 8, ∃ j < 8, j < b.writableFrom lo hi ∧ b.places[lo + j]? = b.places[lo + i]? := by
  have hhi := hc.le.2
  have hheap : ∀ m, h.SameSizes m → (vbufferSetbits ⟨h.next, m⟩ b data 0 64 big 0).1 =
      (⟨h.next, m⟩ : Heap).writeAll
        ((b.writtenPlaces lo hi).zip (replicate (lo + 8 - lo) 0)) := by
    intro m hm
    have hfm : FieldIn ⟨h.next, m⟩ b data lo hi 0 64 := ⟨hm.wf hb, hc, by omega, by omega⟩
    have hlen := field_le_length hfm
    rw [(setbits_eq hfm (by decide)).2,
      writeBits_zero big (by omega), Nat.add_sub_cancel_left]
  rw [forall₂_congr fun m hm => by rw [hheap m hm, askedBits_zero_iff big hle],
    range_stored_iff hb (by omega) length_replicate, storedLast_replicate,
    Nat.add_sub_cancel_left]
  refine forall₂_congr fun i hi' => exists_congr fun j => and_congr_right fun hj => ?_
  rw [getElem?_rangePlaces (by omega)]
  exact writtenPlaces_eq_iff (by omega) (by omega)

theorem setbits_done (hb : b.WF h) (hok : (vbufferSetbits h b data o bits big num).2.2 = true) :
    AllOrNothing h b (fun h => vbufferSetbits h b data o bits big num)
        (AskedBits lo hi o bits big num) ↔
      ∀ m, h.SameSizes m → AskedBits lo hi o bits big num
        (b.content (vbufferSetbits ⟨h.next, m⟩ b data o bits big num).1) := by
  rw [allOrNothing_of_true hok]
  exact forall₂_congr fun m hm => by rw [contentAfter_setbits (hm.wf hb)]

theorem fitsBits_of_none (hfits : FitsBits 0 num) : num = 0 := by
  rcases hfits with ⟨h0, h1⟩ | ⟨h0, h1⟩ <;> simp only [pow_zero] at h1 <;> omega

/-- **Bits.** `vbuffer_setbits` reports what it did for every number that fits the field. -/
theorem bits_report_iff (hb : b.WF h) (hc : b.Covers data lo hi) (ho : b.Ordered data) (o bits : ℕ)
    (big : Bool) :
    (∀ num, FitsBits bits num → AllOrNothing h b (fun h => vbufferSetbits h b data o bits big num)
      (AskedBits lo hi o bits big num)) ↔ BitsReported b lo hi o bits := by
  have hhi := hc.le.2
  have hresult := setbits_result hb hc ho o bits big
  have hrefused : ∀ num, 0 < bits → (vbufferSetbits h b data o bits big num).2.2 ≠ true →
      AllOrNothing h b (fun h => vbufferSetbits h b data o bits big num)
        (AskedBits lo hi o bits big num) := fun num hpos hno =>
    (setbits_refused hb hc ho (Bool.eq_false_iff.2 hno)).2 (not_all_asked hb hhi hpos)
  have hzero : numFits 0 bits = true := (numFits_iff_lt ..).2 (Nat.two_pow_pos _)
  unfold BitsReported
  by_cases h64 : bits ≤ 64
  swap
  · exact iff_of_true (fun num _ => hrefused num (by omega) fun hok => h64 ((hresult num).1 hok).1)
      fun hle => absurd hle h64
  rw [forall_prop_of_true h64]
  by_cases hin : o + bits ≤ 8 * (hi - lo)
  swap
  · -- `return -1`
    refine iff_of_false (fun hall => hin ?_) fun hright => hin hright.1
    have hok := (hresult 0).2 ⟨h64, hzero, fun h1 h2 => by omega⟩
    exact ((hall 0 (fitsBits_zero bits)).reports.1 hok h.mem fun a => rfl).1
  rw [and_iff_right hin]
  by_cases h0 : bits = 0
  · subst h0
    rw [if_pos rfl]
    have hasked : ∀ content, AskedBits lo hi o 0 big 0 content := fun content =>
      ⟨hin, fitsBits_zero 0, fun i hi' => absurd hi' (Nat.not_lt_zero i)⟩
    constructor
    · intro hall
      have hok := (hall 0 (fitsBits_zero 0)).reports.2 fun m _ => hasked _
      have := ((hresult 0).1 hok).2.2
      omega
    · intro hright num hfits
      obtain rfl := fitsBits_of_none hfits
      have hok := (hresult 0).2 ⟨h64, hzero, fun h1 h2 => by omega⟩
      exact (setbits_done hb hok).2 fun m _ => hasked _
  rw [if_neg h0]
  by_cases hend : (o + bits + 7) / 8 ≤ 8
  swap
  · refine iff_of_true (fun num _ => hrefused num (by omega) fun hok => ?_)
      fun hle => absurd hle hend
    exact hend (((hresult num).1 hok).2.2 (by omega) (by omega))
  rw [forall_prop_of_true hend]
  by_cases hall64 : bits = 64
  · subst hall64
    obtain rfl : o = 0 := by omega
    rw [if_pos rfl, ← zeros_written_iff hb hc (by omega)]
    have hdone : AllOrNothing h b _ (AskedBits lo hi 0 64 big 0) ↔ _ :=
      setbits_done hb ((hresult 0).2 ⟨h64, hzero, fun _ _ => hend⟩)
    constructor
    · intro hall
      exact hdone.1 (hall 0 (fitsBits_zero 64))
    · intro hall num _
      by_cases hnum : num = 0
      · subst hnum
        exact hdone.2 hall
      · refine hrefused num (by omega) fun hok => hnum ?_
        have := (numFits_iff_lt num 64).1 ((hresult num).1 hok).2.1
        simpa using this
  · have hwritten : (∀ num, FitsBits bits num → ∀ m, h.SameSizes m → AskedBits lo hi o bits big num
          (b.content (vbufferSetbits ⟨h.next, m⟩ b data o bits big num).1)) ↔ _ :=
      bits_written_iff ⟨hb, hc, by omega, by omega⟩ (by omega)
    rw [if_neg hall64, ← hwritten]
    refine forall₂_congr fun num hfits => setbits_done hb ((hresult num).2 ?_)
    exact ⟨h64, numFits_of_fits (by omega) hfits, fun _ _ => hend⟩

/-- **All or nothing.** What the three functions return tells whether the range was written exactly
if a number that `vbuffer_setnumber` accepts fits the range, each place of which gets its byte;
`vbuffer_setbits` gets no number that it accepts and that does not fit, no field outside of the
range, and none it cannot write; and `vbuffer_zero` is called with an error pending, or for a range
with a read-only chunk whose places are all written nevertheless. -/
theorem all_or_nothing_iff (hb : b.WF h) (hc : b.Covers data lo hi) (ho : b.Ordered data)
    (big error : Bool) (o bits : ℕ) (num : ℤ) :
    (AllOrNothing h b (fun h => vbufferSetnumber h b data big num) (AskedNumber lo hi big num) ↔
      (hi - lo ∈ [1, 2, 4, 8] → num.natAbs < 2 ^ ((hi - lo) * 8 % 64) →
        ∀ W, numberTarget b data lo hi = some W → FitsField (hi - lo) num ∧
          StoredLast W (b.rangePlaces lo hi) (numberBytes (hi - lo) big num))) ∧
    ((∀ num, FitsBits bits num → AllOrNothing h b (fun h => vbufferSetbits h b data o bits big num)
      (AskedBits lo hi o bits big num)) ↔ BitsReported b lo hi o bits) ∧
    (¬FitsBits bits num → (AllOrNothing h b (fun h => vbufferSetbits h b data o bits big num)
        (AskedBits lo hi o bits big num) ↔
      ¬(bits ≤ 64 ∧ num.natAbs < 2 ^ (bits % 64) ∧
        (o + bits ≤ 8 * (hi - lo) → (o + bits + 7) / 8 ≤ 8)))) ∧
    (AllOrNothing h b (fun h => vbufferZero error h b data)
        (fun content => (content.drop lo).take (hi - lo) = replicate (hi - lo) 0) ↔
      (error = true ∨ b.writableFrom lo hi < hi - lo) ∧
        ∀ i < hi - lo, ∃ j < b.writableFrom lo hi, b.places[lo + j]? = b.places[lo + i]?) :=
  ⟨number_reports_iff hb hc ho big num, bits_report_iff hb hc ho o bits big,
    bits_misfit_iff hb hc ho, zero_reports_iff error hb hc ho⟩

end Bits

theorem storedLast_self {R : List (ℕ × ℕ)} {bytes : List UInt8} (hnodup : R.Nodup)
    (hlen : bytes.length = R.length) : StoredLast R R bytes := by
  intro i hi
  refine ⟨i, rfl, rfl, fun j hij hj heq => ?_⟩
  have := (getElem?_inj (by omega) hnodup).1 heq
  omega

/-- The first two bytes of `hello`: the number 5, fields of 8 bits from the bit 4 on, and zeros when
an error is pending. -/
theorem all_or_nothing_hello : helloBuffer.WF helloHeap ∧
      helloBuffer.Covers (vbufferSubCreate helloBuffer 0 (some 2)) 0 2 ∧
      AllOrNothing helloHeap helloBuffer
        (fun h => vbufferSetnumber h helloBuffer (vbufferSubCreate helloBuffer 0 (some 2)) true 5)
        (AskedNumber 0 2 true 5) ∧
      (∀ num, FitsBits 8 num → AllOrNothing helloHeap helloBuffer (fun h =>
          vbufferSetbits h helloBuffer (vbufferSubCreate helloBuffer 0 (some 2)) 4 8 true num)
        (AskedBits 0 2 4 8 true num)) ∧
      AllOrNothing helloHeap helloBuffer
        (fun h => vbufferZero true h helloBuffer (vbufferSubCreate helloBuffer 0 (some 2)))
        (fun content => (content.drop 0).take 2 = replicate 2 0) :=
  have hall := all_or_nothing_iff helloBuffer_wf (subCreate_covers 0 2 helloBuffer_wf)
    (subCreate_ordered 0 (some 2) helloBuffer_wf) true true 4 8 5
  ⟨helloBuffer_wf, subCreate_covers 0 2 helloBuffer_wf, hall.1.2 fun _ _ W hW => by
      obtain rfl : [(1, 0), (1, 1)] = W := Option.some.inj hW
      exact ⟨.inl (by decide), storedLast_self (by decide) rfl⟩,
    hall.2.1.2 fun _ => ⟨by decide, fun _ => ⟨by decide, .inl (by decide), fun k j _ hkj hj => by
      obtain ⟨rfl, rfl⟩ : k = 0 ∧ j = 1 := by omega
      decide⟩⟩,
    hall.2.2.2.2 ⟨.inl rfl, fun i hi => ⟨i, hi, rfl⟩⟩⟩

def lockedHeap : Heap := ⟨6, fun a => if a = 1 then [1, 2] else if a = 2 then [3, 4] else []⟩

def lockedBuffer : Vbuffer :=
  ⟨[⟨3, ⟨false, false, true, false⟩, .basic 1, 0, 2⟩,
    ⟨4, ⟨false, false, false, false⟩, .basic 2, 0, 2⟩], endChunk 5 true⟩

theorem lockedBuffer_wf : lockedBuffer.WF lockedHeap := by
  decide

/-- The number 0 in four bytes is written to the first two, and reported as written. So is a field
behind the end of the buffer. Zeros in two bytes are written, and reported as not written. -/
theorem writes_misreported : lockedBuffer.WF lockedHeap ∧
      (let data := vbufferSubCreate lockedBuffer 0 (some 4)
       let number := vbufferSetnumber lockedHeap lockedBuffer data true 0
       let field := vbufferSetbits lockedHeap lockedBuffer data 40 8 true 1
       let front := vbufferSubCreate lockedBuffer 0 (some 2)
       let zero := vbufferZero false lockedHeap lockedBuffer front
       lockedBuffer.Covers data 0 4 ∧ lockedBuffer.Covers front 0 2 ∧
         number.2.2 = true ∧ number.2.1.content number.1 = [0, 0, 3, 4] ∧
         field.2.2 = true ∧ field.2.1.content field.1 = [1, 2, 3, 4] ∧
         zero.2.2 = false ∧ zero.2.1.content zero.1 = [0, 0, 3, 4]) :=
  ⟨lockedBuffer_wf, subCreate_covers 0 4 lockedBuffer_wf, subCreate_covers 0 2 lockedBuffer_wf,
    by decide, by decide, by decide, by decide, by decide, by decide⟩

end Haka
