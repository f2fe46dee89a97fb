import Haka.Vbuffer.Position

/-!
# Reading a range

`vbuffer_mmap` returns the memory of a range piece by piece, one for each data chunk. The pieces hold
the bytes of the range in order (`mmaps_bytes`), if the beginning is not in a chunk after the one the
end falls in: then the chunks would be followed to the end of the buffer.
-/

namespace Haka

open List

def pieceBytes (m : ℕ → List UInt8) (piece : Chunk × ℕ × ℕ) : List UInt8 :=
  ((m piece.1.data.addr).drop (piece.1.offset + piece.2.1)).take piece.2.2

/-- `vbuffer_mmap` for reading, called until it returns `NULL`: the pieces, each a chunk with a start
and a length. -/
def vbufferMmaps (b : Vbuffer) (data : Sub) : List (Chunk × ℕ × ℕ) :=
  (_vbufferSubIterate b data).filter fun piece => !(piece.1.flags.ctl || piece.2.2 == 0)

/-- The beginning of the sub is not in a chunk after the one its end falls in. -/
def Vbuffer.Ordered (b : Vbuffer) : Sub → Prop
  | .sized _ _ => True
  | .between begin «end» =>
    begin.chunk ∈ idsOf (_vbufferIteratorFix b «end»).1.before ∨
      begin.chunk = (_vbufferIteratorFix b «end»).1.chunk.id

/-- What a piece shows of the lists `f` of the chunks, one element for each byte. -/
def pieceOf {α : Type*} (f : Chunk → List α) (piece : Chunk × ℕ × ℕ) : List α :=
  ((f piece.1).drop piece.2.1).take piece.2.2

section Pieces

variable {α : Type*} {f : Chunk → List α} {m : ℕ → List UInt8}

variable {c : Chunk}

theorem pieceBytes_eq {start len : ℕ} (h : start + len ≤ c.size) :
    pieceBytes m (c, start, len) = ((c.bytes m).drop start).take len := by
  rw [pieceBytes, Chunk.bytes, drop_take, drop_drop, take_take, Nat.min_eq_left (by omega)]

theorem pieceOf_rest (hc : (f c).length = c.size) (start : ℕ) :
    pieceOf f (c, start, c.size - start) = (f c).drop start := by
  rw [pieceOf, take_of_length_le]
  rw [length_drop, hc]

variable {off : ℕ}

theorem take_drop_append {x : List α} (y : List α) {n : ℕ} (ho : off ≤ x.length)
    (hn : x.length - off ≤ n) :
    ((x ++ y).drop off).take n = x.drop off ++ y.take (n - (x.length - off)) := by
  have hlen : (x.drop off).length = x.length - off := length_drop
  rw [drop_append_of_le_length ho, take_append, hlen, take_of_length_le (by omega)]

variable {Q : List Chunk}

theorem subIterateSized_slice (hQ : ∀ c ∈ Q, (f c).length = c.size) {len : ℕ}
    (ho : ∀ c ∈ Q.head?, off ≤ c.size) :
    (subIterateSized Q off len).flatMap (pieceOf f) = ((Q.flatMap f).drop off).take len := by
  induction Q generalizing off len with
  | nil => simp [subIterateSized]
  | cons c Q ih =>
    obtain ⟨hlen, hQ⟩ := forall_mem_cons.1 hQ
    have ho : off ≤ c.size := ho c rfl
    rw [subIterateSized, flatMap_cons]
    split
    case isTrue h0 => simp [h0]
    split
    case isTrue hge =>
      rw [flatMap_cons, pieceOf_rest hlen, ih hQ (by simp), drop_zero,
        take_drop_append _ (by omega) (by omega), hlen]
    case isFalse hlt =>
      rw [flatMap_cons, flatMap_nil, append_nil, pieceOf, drop_append_of_le_length (by omega),
        take_append_of_le_length (by rw [length_drop]; omega)]

theorem subIterateBetween_slice {M T : List Chunk} (hMT : ∀ c ∈ M ++ T, (f c).length = c.size)
    {endId endoffset : ℕ} (hM : endId ∉ idsOf M)
    (hT : (T = [] ∧ endoffset = 0) ∨ ∃ c R, T = c :: R ∧ c.id = endId ∧ endoffset ≤ c.size)
    (ho : ∀ c ∈ M.head?, off ≤ c.size) (hoff : M = [] → off ≤ endoffset) :
    (subIterateBetween endId endoffset (M ++ T) off).flatMap (pieceOf f) =
      (((M ++ T).flatMap f).drop off).take (totalSize M + endoffset - off) := by
  induction M generalizing off with
  | nil =>
    have hle := hoff rfl
    rcases hT with ⟨rfl, rfl⟩ | ⟨c, R, rfl, hid, he⟩
    · simp [subIterateBetween]
    · have hlen := hMT c (by simp)
      rw [nil_append, subIterateBetween, if_pos hid, if_neg (by omega), flatMap_cons,
        flatMap_nil, append_nil, pieceOf, flatMap_cons, totalSize_nil,
        Nat.zero_add, drop_append_of_le_length (by omega),
        take_append_of_le_length (by rw [length_drop]; omega)]
  | cons c M ih =>
    obtain ⟨hlen, hMT⟩ := forall_mem_cons.1 hMT
    rw [idsOf_cons, mem_cons, not_or] at hM
    have ho : off ≤ c.size := ho c rfl
    rw [cons_append, subIterateBetween, if_neg (Ne.symm hM.1), flatMap_cons,
      pieceOf_rest hlen, ih hMT hM.2 (by simp) (by simp), drop_zero, Nat.sub_zero,
      flatMap_cons, totalSize_cons, take_drop_append _ (by omega) (by omega), hlen]
    congr 2
    omega

/-- The pieces of a range that begins at an offset of the first chunk. All but the last one go to the
end of their chunk. -/
inductive Pieces : List Chunk → ℕ → List (Chunk × ℕ × ℕ) → Prop
  | nil {l start} : Pieces l start []
  | last {c l start n} : start + n ≤ c.size → Pieces (c :: l) start [(c, start, n)]
  | cons {c l start pieces} : start ≤ c.size → Pieces l 0 pieces →
    Pieces (c :: l) start ((c, start, c.size - start) :: pieces)

theorem Pieces.sized (ho : ∀ c ∈ Q.head?, off ≤ c.size) (len : ℕ) :
    Pieces Q off (subIterateSized Q off len) := by
  induction Q generalizing off len with
  | nil => exact .nil
  | cons c Q ih =>
    have ho : off ≤ c.size := ho c rfl
    rw [subIterateSized]
    split_ifs
    · exact .nil
    · exact .cons ho (ih (by simp) _)
    · exact .last (by omega)

theorem Pieces.between {endId endoffset : ℕ} (hend : ∀ c ∈ Q, c.id = endId → endoffset ≤ c.size)
    (ho : ∀ c ∈ Q.head?, off ≤ c.size) :
    Pieces Q off (subIterateBetween endId endoffset Q off) := by
  induction Q generalizing off with
  | nil => exact .nil
  | cons c Q ih =>
    obtain ⟨hc, hend⟩ := forall_mem_cons.1 hend
    rw [subIterateBetween]
    split_ifs with hid
    · exact .nil
    · have := hc hid
      exact .last (by omega)
    · exact .cons (ho c rfl) (ih hend (by simp))

theorem Pieces.mem {pieces : List (Chunk × ℕ × ℕ)} (hp : Pieces Q off pieces) :
    ∀ piece ∈ pieces, piece.1 ∈ Q ∧ piece.2.1 + piece.2.2 ≤ piece.1.size := by
  induction hp with
  | nil => simp
  | last hle => simpa using hle
  | cons ho _ ih =>
    rintro piece hp
    rcases mem_cons.1 hp with rfl | hp
    · exact ⟨mem_cons_self, by dsimp only; omega⟩
    · obtain ⟨hmem, hle⟩ := ih piece hp
      exact ⟨mem_cons_of_mem _ hmem, hle⟩

end Pieces

/-! ## The order of two positions -/

theorem fixLoop_pos (before after : List Chunk) {offset : ℕ} (h : 0 < offset) :
    0 < (fixLoop before after offset).2 := by
  induction after generalizing before offset with
  | nil => exact h
  | cons iter after ih =>
    rw [fixLoop]
    split
    · exact ih _ (by omega)
    · exact h

variable {pos : Iterator}

theorem fix_pos (b : Vbuffer) (hp : 0 < pos.offset) : 0 < (_vbufferIteratorFix b pos).2 := by
  unfold _vbufferIteratorFix
  dsimp only
  split
  · exact fixLoop_pos _ _ hp
  · exact hp

theorem fix_seek_or_pos (b : Vbuffer) (pos : Iterator) :
    (_vbufferIteratorFix b pos).1 = b.seek pos.chunk ∨ 0 < (_vbufferIteratorFix b pos).2 := by
  unfold _vbufferIteratorFix
  dsimp only
  split
  · exact .inr (fixLoop_pos _ _ (by omega))
  · exact .inl rfl

variable {b : Vbuffer}

theorem fix_moved {P Q : List Chunk} {off : ℕ}
    (hfix : _vbufferIteratorFix b pos = (⟨P, Q, b.last⟩, off)) (hP : pos.chunk ∈ idsOf P) :
    0 < off := by
  have h := fix_seek_or_pos b pos
  rw [hfix] at h
  refine h.resolve_left fun hseek => ?_
  have hbefore : P = b.body.takeWhile fun c => c.id ≠ pos.chunk := congrArg Cut.before hseek
  obtain ⟨c, hc, hid⟩ := (mem_idsOf _).1 hP
  rw [hbefore] at hc
  simpa [hid] using mem_takeWhile_imp hc

theorem prefix_cases {α : Type*} {P Q P' Q' : List α} (h : P ++ Q = P' ++ Q') :
    (∃ M, P' = P ++ M ∧ Q = M ++ Q') ∨ ∃ c M, P = P' ++ c :: M ∧ Q' = c :: M ++ Q := by
  rcases append_eq_append_iff.1 h with ⟨M, hP, hQ⟩ | ⟨M, hP, hQ⟩
  · exact .inl ⟨M, hP, hQ⟩
  · cases M with
    | nil => exact .inl ⟨[], by simpa using hP.symm, by simpa using hQ.symm⟩
    | cons c M => exact .inr ⟨c, M, hP, hQ⟩

theorem ordered_fix {begin «end» : Iterator} {P Q P' Q' : List Chunk}
    {off off' : ℕ} (hle : b.offsetOf begin ≤ b.offsetOf «end»)
    (ho : b.Ordered (.between begin «end»))
    (hfix : _vbufferIteratorFix b begin = (⟨P, Q, b.last⟩, off)) (hat : FixedAt b begin P Q off)
    (hfix' : _vbufferIteratorFix b «end» = (⟨P', Q', b.last⟩, off'))
    (hat' : FixedAt b «end» P' Q' off') : ∃ M, P' = P ++ M ∧ Q = M ++ Q' := by
  refine (prefix_cases (hat.body.symm.trans hat'.body)).resolve_right ?_
  rintro ⟨c, M, rfl, rfl⟩
  rw [Vbuffer.Ordered, hfix'] at ho
  have hchunk : begin.chunk ∈ idsOf (P' ++ c :: M) := by
    rcases ho with ho | ho
    · simp [ho]
    · simp [ho, Cut.chunk]
  have hpos := fix_moved hfix hchunk
  have h1 := hat.offset
  have h2 := hat'.offset
  have h3 : off' ≤ c.size := hat'.inChunk
  rw [totalSize_append, totalSize_cons] at h1
  omega

section Read

variable {h : Heap} {b : Vbuffer} {data : Sub} {lo hi : ℕ}

theorem head_le {P Q : List Chunk} {e : Chunk} {off : ℕ} (h : off ≤ (Cut.mk P Q e).chunk.size) :
    ∀ c ∈ Q.head?, off ≤ c.size := by
  rintro c hc
  obtain ⟨Q, rfl⟩ : ∃ R, Q = c :: R := head?_eq_some_iff.1 hc
  exact h

/-- The chunks of a range between two iterators: `P` before the beginning, `M` up to the chunk that
the end falls in, which is the head of `T`. -/
structure BetweenAt (b : Vbuffer) (begin «end» : Iterator) (P M T : List Chunk)
    (off endoffset : ℕ) : Prop where
  atBegin : _vbufferIteratorFix b begin = (⟨P, M ++ T, b.last⟩, off)
  atEnd : _vbufferIteratorFix b «end» = (⟨P ++ M, T, b.last⟩, endoffset)
  body : b.body = P ++ (M ++ T)
  lo : totalSize P + off = b.offsetOf begin
  hi : totalSize P + (totalSize M + endoffset) = b.offsetOf «end»
  endId : (Cut.mk (P ++ M) T b.last).chunk.id ∉ idsOf M
  endChunk : (T = [] ∧ endoffset = 0) ∨
    ∃ c R, T = c :: R ∧ c.id = (Cut.mk (P ++ M) T b.last).chunk.id ∧ endoffset ≤ c.size
  head : ∀ c ∈ M.head?, off ≤ c.size
  same : M = [] → off ≤ endoffset

theorem between_spec {begin «end» : Iterator} (hb : b.WF h) (hbegin : b.InRange begin)
    (hend : b.InRange «end») (hle : b.offsetOf begin ≤ b.offsetOf «end»)
    (ho : b.Ordered (.between begin «end»)) :
    ∃ P M T off endoffset, BetweenAt b begin «end» P M T off endoffset := by
  obtain ⟨P, Q, off, hfix, hat⟩ := fix_spec hb hbegin
  obtain ⟨P', T, endoffset, hfix', hat'⟩ := fix_spec hb hend
  obtain ⟨M, rfl, rfl⟩ := ordered_fix hle ho hfix hat hfix' hat'
  have hbody := hat.body
  have hlo := hat.offset
  have hhi := hat'.offset
  rw [totalSize_append, Nat.add_assoc] at hhi
  have hnodup := hb.nodup_body
  rw [hbody, idsOf_append, idsOf_append] at hnodup
  refine ⟨P, M, T, off, endoffset, hfix, hfix', hbody, hlo, hhi, ?_, ?_, ?_, ?_⟩
  · rintro hm
    cases T with
    | nil => exact hb.last_notMem (by simpa [hbody, Cut.chunk] using .inr hm)
    | cons c R =>
      exact disjoint_of_nodup_append hnodup.of_append_right hm mem_cons_self
  · cases T with
    | nil =>
      have hz := hb.last_size
      have hin : endoffset ≤ b.last.size := hat'.inChunk
      exact .inl ⟨rfl, by omega⟩
    | cons c R => exact .inr ⟨c, R, rfl, rfl, hat'.inChunk⟩
  · cases M with
    | nil => simp
    | cons c M => exact fun d hd => head_le hat.inChunk d hd
  · rintro rfl
    rw [totalSize_nil] at hhi
    omega

variable {α : Type*}

variable {f : Chunk → List α}

theorem length_flatMap_chunks {l : List Chunk}
    (hl : ∀ c ∈ l, (f c).length = c.size) : (l.flatMap f).length = totalSize l := by
  induction l with
  | nil => rfl
  | cons c l ih =>
    obtain ⟨hc, hl⟩ := forall_mem_cons.1 hl
    rw [flatMap_cons, length_append, totalSize_cons, hc, ih hl]

theorem subIterate_slice (hf : ∀ c ∈ b.body, (f c).length = c.size)
    (hb : b.WF h) (hc : b.Covers data lo hi) (ho : b.Ordered data) :
    (_vbufferSubIterate b data).flatMap (pieceOf f) =
      ((b.body.flatMap f).drop lo).take (hi - lo) := by
  have hcontent : ∀ {P Q off}, b.body = P ++ Q →
      (b.body.flatMap f).drop (totalSize P + off) = (Q.flatMap f).drop off := by
    rintro P Q off hbody
    have hlen : (P.flatMap f).length = totalSize P :=
      length_flatMap_chunks fun c hc => hf c (by simp [hbody, hc])
    rw [hbody, flatMap_append, ← drop_drop, ← hlen, drop_left]
  cases hc with
  | @sized begin length hbegin =>
    obtain ⟨P, Q, off, hfix, hat⟩ := fix_spec hb hbegin
    have hQ : ∀ c ∈ Q, (f c).length = c.size := fun c hc => hf c (by simp [hat.body, hc])
    rw [_vbufferSubIterate, hfix]
    rw [subIterateSized_slice hQ (head_le hat.inChunk), ← hat.offset, hcontent hat.body]
    have hlen : ((Q.flatMap f).drop off).length = totalSize Q - off := by
      rw [length_drop, length_flatMap_chunks hQ]
    have htotal : totalSize b.body = totalSize P + totalSize Q := by
      rw [hat.body, totalSize_append]
    rcases Nat.le_total (totalSize P + off + length) (totalSize b.body) with hle | hle
    · rw [Nat.min_eq_left hle, Nat.add_sub_cancel_left]
    · rw [Nat.min_eq_right hle, take_of_length_le (by omega), take_of_length_le (by omega)]
  | @between begin «end» hbegin hend _ hle =>
    obtain ⟨P, M, T, off, endoffset, hat⟩ := between_spec hb hbegin hend hle ho
    rw [_vbufferSubIterate, hat.atBegin, hat.atEnd]
    have hMT : ∀ c ∈ M ++ T, (f c).length = c.size :=
      fun c hc => hf c (by rw [hat.body]; exact mem_append_right _ hc)
    rw [subIterateBetween_slice hMT hat.endId hat.endChunk hat.head hat.same, ← hat.lo,
      hcontent hat.body, ← hat.hi]
    congr 1
    omega

variable {c : Chunk}

theorem fix_after_mem (hc : c ∈ (_vbufferIteratorFix b pos).1.after) : c ∈ b.body := by
  rw [← fix_body b pos]
  exact mem_append_right _ hc

theorem fix_head_le (b : Vbuffer) (pos : Iterator) :
    ∀ c ∈ (_vbufferIteratorFix b pos).1.after.head?, (_vbufferIteratorFix b pos).2 ≤ c.size := by
  rintro c hc
  obtain ⟨rest, hrest⟩ := head?_eq_some_iff.1 hc
  exact fix_inChunk hrest

theorem fix_end_le (hb : b.WF h) (pos : Iterator) (hc : c ∈ b.body)
    (hid : c.id = (_vbufferIteratorFix b pos).1.chunk.id) : (_vbufferIteratorFix b pos).2 ≤ c.size := by
  rw [Cut.chunk, fix_cut_last] at hid
  cases hQ : (_vbufferIteratorFix b pos).1.after with
  | nil =>
    rw [hQ] at hid
    exact absurd ((mem_idsOf _).2 ⟨c, hc, hid⟩) hb.last_notMem
  | cons d R =>
    rw [hQ] at hid
    have hd : d ∈ b.body := fix_after_mem (by simp [hQ] : d ∈ (_vbufferIteratorFix b pos).1.after)
    rw [inj_on_of_nodup_map hb.nodup_body hc hd hid]
    exact fix_inChunk hQ

theorem subIterate_pieces (hb : b.WF h) (data : Sub) :
    Pieces (_vbufferIteratorFix b data.begin).1.after (_vbufferIteratorFix b data.begin).2
      (_vbufferSubIterate b data) := by
  cases data with
  | sized begin length => exact .sized (fix_head_le b begin) length
  | between begin «end» =>
    exact .between (fun c hc => fix_end_le hb «end» (fix_after_mem hc)) (fix_head_le b begin)

theorem subIterate_mem (hb : b.WF h) (data : Sub) : ∀ piece ∈ _vbufferSubIterate b data,
      piece.1 ∈ b.body ∧ piece.2.1 + piece.2.2 ≤ piece.1.size := by
  rintro piece hp
  obtain ⟨hmem, hsize⟩ := (subIterate_pieces hb data).mem piece hp
  exact ⟨fix_after_mem hmem, hsize⟩

theorem flatMap_filter_of_nil {β : Type*} {p : α → Bool} {f : α → List β} {l : List α}
    (hl : ∀ x ∈ l, p x = false → f x = []) : (l.filter p).flatMap f = l.flatMap f := by
  induction l with
  | nil => rfl
  | cons x l ih =>
    obtain ⟨hx, hl⟩ := forall_mem_cons.1 hl
    cases hp : p x with
    | true => rw [filter_cons_of_pos hp, flatMap_cons, flatMap_cons, ih hl]
    | false =>
      rw [filter_cons_of_neg (by simp [hp]), flatMap_cons, hx hp, nil_append, ih hl]

theorem mmaps_subIterate (f : Chunk → List α) (hb : b.WF h) (data : Sub) :
    (vbufferMmaps b data).flatMap (pieceOf f) =
      (_vbufferSubIterate b data).flatMap (pieceOf f) := by
  refine flatMap_filter_of_nil fun piece hp hskip => ?_
  obtain ⟨hmem, hle⟩ := subIterate_mem hb data piece hp
  have hlen : piece.2.2 = 0 := by
    simp only [Bool.not_eq_false', Bool.or_eq_true, beq_iff_eq] at hskip
    rcases hskip with hctl | hlen
    · have := (hb.valid_body _ hmem).ctlSize hctl
      omega
    · exact hlen
  rw [pieceOf, hlen, take_zero]

theorem mmaps_slice (hf : ∀ c ∈ b.body, (f c).length = c.size) (hb : b.WF h)
    (hc : b.Covers data lo hi) (ho : b.Ordered data) :
    (vbufferMmaps b data).flatMap (pieceOf f) = ((b.body.flatMap f).drop lo).take (hi - lo) := by
  rw [mmaps_subIterate f hb, subIterate_slice hf hb hc ho]

theorem mmaps_mem (hb : b.WF h) (data : Sub) :
    ∀ piece ∈ vbufferMmaps b data, piece.1 ∈ b.body ∧ piece.2.1 + piece.2.2 ≤ piece.1.size :=
  fun piece hp => subIterate_mem hb data piece (mem_of_mem_filter hp)

theorem mmaps_pieces (hb : b.WF h) (data : Sub) : (vbufferMmaps b data).flatMap (pieceBytes h.mem) =
      (_vbufferSubIterate b data).flatMap (pieceOf fun c => c.bytes h.mem) := by
  rw [← mmaps_subIterate _ hb]
  exact flatMap_congr fun piece hp => pieceBytes_eq (mmaps_mem hb data piece hp).2

theorem mmaps_bytes (hb : b.WF h) (hc : b.Covers data lo hi) (ho : b.Ordered data) :
    (vbufferMmaps b data).flatMap (pieceBytes h.mem) = ((b.content h).drop lo).take (hi - lo) := by
  rw [mmaps_pieces hb, subIterate_slice (fun c hc => (hb.valid_body c hc).inBlock) hb hc ho]
  rfl

theorem subCreate_all_ordered (a : ℕ) (hb : b.WF h) : b.Ordered (vbufferSubCreate b a none) := by
  have hmem := mem_ids_of_check (position_spec 0 a hb).1.check
  obtain ⟨-, -, hfix⟩ := inRange_of_cut (P := b.body) (Q := []) ⟨b.last.id, 0, 0, false⟩ hb
    (by simp) rfl (Nat.zero_le _)
  simp only [vbufferSubCreate, Vbuffer.Ordered]
  rw [show vbufferPosition b 0 none = ⟨b.last.id, 0, 0, false⟩ from rfl, hfix]
  simpa [Vbuffer.all, Cut.chunk] using hmem

end Read

end Haka
