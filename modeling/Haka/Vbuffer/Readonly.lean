import Haka.Vbuffer.Refine
import Haka.Vbuffer.Write

/-!
# Read-only chunks

A chunk whose `writable` flag is clear should keep its bytes. The edits check the flag of the chunks
they split or write through, but not of the chunks between the two ends of a range, nor of the other
chunks that share the memory they write to. `readonly_protected_iff` says for which buffers the bytes
of read-only chunks are safe from every call.
-/

namespace Haka

open List

/-! ## Places -/

def Chunk.places (c : Chunk) : List (ℕ × ℕ) :=
  (range c.size).map fun i => (c.data.addr, c.offset + i)

def readonlyPlaces (l : List Chunk) : List (ℕ × ℕ) :=
  (l.filter fun c => !c.flags.writable).flatMap Chunk.places

section Places

variable {c d : Chunk} {l l' : List Chunk} {p : ℕ × ℕ}

theorem Chunk.mem_places :
    p ∈ c.places ↔ p.1 = c.data.addr ∧ c.offset ≤ p.2 ∧ p.2 < c.offset + c.size := by
  obtain ⟨a, o⟩ := p
  simp only [Chunk.places, mem_map, mem_range, Prod.mk.injEq]
  constructor
  · rintro ⟨i, hi, rfl, rfl⟩
    exact ⟨rfl, by omega, by omega⟩
  · rintro ⟨rfl, hle, hlt⟩
    exact ⟨o - c.offset, by omega, rfl, by omega⟩

@[simp] theorem readonlyPlaces_nil : readonlyPlaces [] = [] := rfl

@[simp] theorem readonlyPlaces_append :
    readonlyPlaces (l ++ l') = readonlyPlaces l ++ readonlyPlaces l' := by
  simp [readonlyPlaces]

theorem readonlyPlaces_cons (c : Chunk) (l : List Chunk) :
    readonlyPlaces (c :: l) = readonlyPlaces [c] ++ readonlyPlaces l :=
  readonlyPlaces_append (l := [c])

theorem readonlyPlaces_writable (hc : c.flags.writable = true) : readonlyPlaces [c] = [] := by
  simp [readonlyPlaces, hc]

theorem readonlyPlaces_readonly (hc : c.flags.writable = false) :
    readonlyPlaces [c] = c.places := by
  simp [readonlyPlaces, hc]

theorem mem_readonlyPlaces :
    p ∈ readonlyPlaces l ↔ ∃ d ∈ l, d.flags.writable = false ∧ p ∈ d.places := by
  simp [readonlyPlaces, and_assoc]

theorem readonlyPlaces_eq_nil (hl : ∀ c ∈ l, c.flags.writable = true ∨ c.size = 0) :
    readonlyPlaces l = [] := by
  rw [eq_nil_iff_forall_not_mem]
  rintro p hp
  obtain ⟨d, hd, hro, hmem⟩ := mem_readonlyPlaces.1 hp
  have := Chunk.mem_places.1 hmem
  rcases hl d hd with hw | hz
  · rw [hw] at hro
    cases hro
  · omega

theorem readonlyPlaces_congr (hp : c.places = d.places) (hw : c.flags.writable = d.flags.writable) :
    readonlyPlaces [c] = readonlyPlaces [d] := by
  cases hd : d.flags.writable with
  | true => rw [readonlyPlaces_writable hd, readonlyPlaces_writable (hw.trans hd)]
  | false => rw [readonlyPlaces_readonly hd, readonlyPlaces_readonly (hw.trans hd), hp]

variable {off : ℕ}

theorem places_left_right (id : ℕ) (ho : off ≤ c.size) :
    (c.left off).places ++ (c.right off id).places = c.places := by
  simp only [Chunk.places, Chunk.left, Chunk.right]
  conv_rhs => rw [← Nat.add_sub_cancel' ho, range_add, map_append, map_map]
  simp [Function.comp_def, Nat.add_assoc]

theorem splitChunk_readonly (h : Heap) (mark : Bool) (ho : off ≤ c.size) :
    readonlyPlaces (splitChunk h (c.markIf mark) off).2.1 ++
      readonlyPlaces (splitChunk h (c.markIf mark) off).2.2 = readonlyPlaces [c] := by
  have hmark : readonlyPlaces [c.markIf mark] = readonlyPlaces [c] :=
    readonlyPlaces_congr (by simp [Chunk.places]) (by simp)
  unfold splitChunk
  split_ifs
  · rw [readonlyPlaces_nil, nil_append, hmark]
  · rw [readonlyPlaces_nil, append_nil, hmark]
  · rw [← hmark]
    cases hw : (c.markIf mark).flags.writable with
    | true =>
      rw [readonlyPlaces_writable hw, readonlyPlaces_writable (c := (c.markIf mark).left off) hw,
        readonlyPlaces_writable (c := (c.markIf mark).right off h.next) hw]
      rfl
    | false =>
      rw [readonlyPlaces_readonly hw, readonlyPlaces_readonly (c := (c.markIf mark).left off) hw,
        readonlyPlaces_readonly (c := (c.markIf mark).right off h.next) hw]
      exact places_left_right h.next (by simpa using ho)

end Places

/-! ## Splits and extractions -/

def ReadonlyFirst (l : List Chunk) : Prop :=
  l.Pairwise fun a c => a.flags.writable = true → c.flags.writable = true ∨ c.size = 0

section Extract

variable {h h' : Heap} {b : Vbuffer} {pos : Iterator} {mark : Bool} {k : Cut}

theorem split_readonly (heq : _vbufferIteratorSplit h b pos mark = (h', some k)) :
    readonlyPlaces k.before ++ readonlyPlaces k.after = readonlyPlaces b.body := by
  obtain ⟨-, -, rfl, -⟩ | ⟨P, iter, rest, off, -, hbody, ho, -, -, rfl⟩ := split_inv heq
  · rw [readonlyPlaces_nil, append_nil]
  · rw [hbody, readonlyPlaces_append, readonlyPlaces_append, append_assoc,
      ← append_assoc (readonlyPlaces (splitChunk _ _ _).2.1), splitChunk_readonly h mark ho,
      readonlyPlaces_append, readonlyPlaces_cons iter rest]

theorem ReadonlyFirst.replace {P X Q : List Chunk} {iter : Chunk}
    (hf : ReadonlyFirst (P ++ iter :: Q)) (hX : ∀ x ∈ X, x.IsPart iter) :
    ReadonlyFirst (P ++ (X ++ Q)) := by
  obtain ⟨hP, hiter, hcross⟩ := pairwise_append.1 hf
  obtain ⟨hrest, hQ⟩ := pairwise_cons.1 hiter
  refine pairwise_append.2 ⟨hP, pairwise_append.2 ⟨?_, hQ, ?_⟩, ?_⟩
  · refine pairwise_of_forall_mem_list fun x hx y hy hw => ?_
    rw [(hX x hx).writable] at hw
    exact .inl ((hX y hy).writable.trans hw)
  · rintro x hx q hq hw
    rw [(hX x hx).writable] at hw
    exact hrest q hq hw
  · rintro a ha x hx hw
    rcases mem_append.1 hx with hx | hx
    · rcases hcross a ha iter (by simp) hw with hi | hi
      · exact .inl ((hX x hx).writable.trans hi)
      · have := (hX x hx).size
        exact .inr (by omega)
    · exact hcross a ha x (by simp [hx]) hw

theorem split_first (hf : ReadonlyFirst b.body)
    (heq : _vbufferIteratorSplit h b pos true = (h', some k)) :
    ReadonlyFirst (k.before ++ k.after) ∧
      ∀ c ∈ k.after, c.flags.writable = true ∨ c.size = 0 := by
  obtain ⟨-, -, rfl, -⟩ | ⟨P, iter, rest, off, -, hbody, ho, hw, -, rfl⟩ := split_inv heq
  · rw [append_nil]
    exact ⟨hf, by simp⟩
  · have hpart := splitChunk_part h true ho
    rw [hbody] at hf
    rw [append_assoc, ← append_assoc (splitChunk _ _ _).2.1]
    refine ⟨hf.replace hpart, fun c hc => ?_⟩
    rcases mem_append.1 hc with hc | hc
    · exact .inl ((hpart c (by simp [hc])).writable.trans (hw rfl))
    · exact (pairwise_cons.1 (pairwise_append.1 hf).2.1).1 c hc (hw rfl)

theorem extractLoop_mem (size : Option ℕ) (endId : ℕ) (mark ins : Bool) (s : Passed)
    (l : List Chunk) : (extractLoop h size endId mark ins s l).1.mem = h.mem := by
  fun_induction extractLoop h size endId mark ins s l with
  | case1 => rfl
  | case2 s iter rest size hsize ih => exact ih
  | case3 => rfl
  | case4 s iter rest size hsize hro h1 l r hsplit =>
    have := splitChunk_mem h (iter.markIf mark) size
    rw [hsplit] at this
    exact this
  | case5 => rfl
  | case6 s iter rest hid ih => exact ih

/-- An extraction from a buffer with all read-only bytes in front takes none of them. -/
theorem extractFrom_readonly (hf : ReadonlyFirst b.body) (h : Heap) (begin : Iterator)
    (size : Option ℕ) (endId : ℕ) :
    (extractFrom h b begin size endId true false).heap.mem = h.mem ∧
    readonlyPlaces (extractFrom h b begin size endId true false).source.body =
      readonlyPlaces b.body ∧
    ∀ ext k, (extractFrom h b begin size endId true false).extracted = some (ext, k) →
      (extractFrom h b begin size endId true false).source = k.toVbuffer := by
  unfold extractFrom
  rcases hsplit : _vbufferIteratorSplit h b (vbufferIteratorCopy begin) true with ⟨h1, _ | k⟩
  · exact ⟨by rw [split_none hsplit], rfl, by simp⟩
  have hmem := split_mem hsplit
  have hro := split_readonly hsplit
  obtain ⟨-, hafter⟩ := split_first hf hsplit
  simp only [Bool.not_false, Bool.or_true, if_true]
  have hloopmem := extractLoop_mem (h := (_vbufferInit h1 k.chunk.flags.writable).1) size endId true
    false ⟨[], [], []⟩ k.after
  rcases hloop : extractLoop (_vbufferInit h1 k.chunk.flags.writable).1 size endId true false
    ⟨[], [], []⟩ k.after with ⟨h2, s, rest, ok⟩
  have hparts := (extractLoop_inParts [] hloop).forall_mem
    (fun c d hp hd => hd.imp (fun hd => hp.writable.trans hd) fun hd => by have := hp.size; omega)
    hafter
  rw [hloop] at hloopmem
  have hnone := readonlyPlaces_eq_nil hparts
  rw [readonlyPlaces_eq_nil hafter, append_nil] at hro
  simp only [nil_append, readonlyPlaces_append, append_eq_nil_iff] at hnone
  obtain ⟨⟨⟨hmoved, hskipped⟩, hrange⟩, hrest⟩ := hnone
  refine ⟨?_, ?_, ?_⟩
  · cases ok <;> exact hloopmem.trans hmem
  · cases ok <;>
      simp [extractDone, Cut.toVbuffer, hro, hmoved, hskipped, hrange, hrest]
  · cases ok
    · simp
    · rintro ext k' hk
      simp only [extractDone, Bool.false_eq_true, if_false, Option.some.injEq,
        Prod.mk.injEq] at hk ⊢
      rw [hk.2]

theorem extract_readonly (hf : ReadonlyFirst b.body) (h : Heap) (data : Sub) :
    (_vbufferExtract h b data true false).heap.mem = h.mem ∧
    readonlyPlaces (_vbufferExtract h b data true false).source.body = readonlyPlaces b.body ∧
    ∀ ext k, (_vbufferExtract h b data true false).extracted = some (ext, k) →
      (_vbufferExtract h b data true false).source = k.toVbuffer := by
  unfold _vbufferExtract
  split
  · cases data with
    | sized begin length => exact extractFrom_readonly hf h begin (some length) 0
    | between begin «end» =>
      dsimp only
      rcases hsplit : _vbufferIteratorSplit h b (vbufferIteratorCopy «end») true with ⟨h1, _ | k⟩
      · exact ⟨by rw [split_none hsplit], rfl, by simp⟩
      · obtain ⟨hmem, hro, hk⟩ := extractFrom_readonly (b := k.toVbuffer) (split_first hf hsplit).1
          h1 begin none k.chunk.id
        refine ⟨hmem.trans (split_mem hsplit), hro.trans ?_, hk⟩
        rw [Cut.toVbuffer, readonlyPlaces_append, split_readonly hsplit]
  · exact ⟨rfl, rfl, by simp⟩

end Extract

/-! ## Writes -/

def ReadonlyApart (l : List Chunk) : Prop :=
  ∀ c ∈ l, c.flags.writable = true → ∀ p ∈ c.places, p ∉ readonlyPlaces l

theorem readonlyPlaces_unmark (l : List Chunk) :
    readonlyPlaces (l.map Chunk.unmark) = readonlyPlaces l := by
  induction l with
  | nil => rfl
  | cons c l ih =>
    rw [map_cons, readonlyPlaces_cons, readonlyPlaces_cons c, ih,
      readonlyPlaces_congr (c := c.unmark) (d := c) rfl rfl]

theorem Vbuffer.Remarked.readonly {b b' : Vbuffer} (hr : b.Remarked b') :
    readonlyPlaces b'.body = readonlyPlaces b.body := by
  rw [← readonlyPlaces_unmark, hr.body, readonlyPlaces_unmark]

/-- The bytes the read-only chunks of `b` hold are still in the buffer, and are the same. -/
structure KeepsReadonly (h : Heap) (b : Vbuffer) (h' : Heap) (b' : Vbuffer) : Prop where
  held : (readonlyPlaces b.body).Subperm (readonlyPlaces b'.body)
  bytes : ∀ p ∈ readonlyPlaces b.body, h'.byteAt p = h.byteAt p

section Write

variable {h h' : Heap} {b b' : Vbuffer}

theorem KeepsReadonly.refl (h : Heap) (b : Vbuffer) : KeepsReadonly h b h b :=
  ⟨.refl _, fun _ _ => rfl⟩

theorem KeepsReadonly.of_remarked (hr : b.Remarked b')
    (hbytes : ∀ p ∈ readonlyPlaces b.body, h'.byteAt p = h.byteAt p) : KeepsReadonly h b h' b' :=
  ⟨by rw [hr.readonly], hbytes⟩

theorem store_readonly (ha : ReadonlyApart b.body) {c : Chunk} (hc : c ∈ b.body)
    (hw : c.flags.writable = true) {start : ℕ} {bytes : List UInt8}
    (hle : start + bytes.length ≤ c.size) :
    ∀ p ∈ readonlyPlaces b.body,
      (h.store c.data.addr (c.offset + start) bytes).byteAt p = h.byteAt p := by
  rintro p hp
  refine byteAt_store_of_not ?_
  rintro ⟨haddr, hlo, hhi⟩
  exact ha c hc hw p (Chunk.mem_places.2 ⟨haddr, by omega, by omega⟩) hp

theorem subWriteLoop_readonly (ha : ReadonlyApart b.body) {pieces : List (Chunk × ℕ × ℕ)}
    (hpieces : ∀ piece ∈ pieces, piece.1 ∈ b.body ∧ piece.2.1 + piece.2.2 ≤ piece.1.size)
    (src : List UInt8) :
    ∀ p ∈ readonlyPlaces b.body, (subWriteLoop h b' pieces src).1.byteAt p = h.byteAt p := by
  induction pieces generalizing h b' src with
  | nil => exact fun _ _ => rfl
  | cons piece pieces ih =>
    obtain ⟨c, start, len⟩ := piece
    obtain ⟨⟨hc, hle⟩, hpieces⟩ := forall_mem_cons.1 hpieces
    rw [subWriteLoop]
    split
    · exact fun _ _ => rfl
    cases hw : c.flags.writable with
    | false =>
      rw [getData_readonly hw]
      exact fun _ _ => rfl
    | true =>
      rw [getData_writable hw]
      rintro p hp
      refine (ih hpieces (src.drop len) p hp).trans (store_readonly ha hc hw ?_ p hp)
      have := length_take_le len src
      dsimp only at hle ⊢
      omega

section

variable (hb : b.WF h) (ha : ReadonlyApart b.body)

include hb ha

theorem subWrite_keeps (data : Sub) (src : List UInt8) :
    KeepsReadonly h b (vbufferSubWrite h b data src).1 (vbufferSubWrite h b data src).2.1 := by
  refine .of_remarked (subWrite_wrote hb data src).remarked ?_
  unfold vbufferSubWrite
  split
  · exact subWriteLoop_readonly ha
      (fun piece hp => subIterate_mem hb data piece (mem_filter.1 hp).1) src
  · exact fun _ _ => rfl

theorem iteratorSetbyte_keeps (pos : Iterator)
    (byte : UInt8) :
    KeepsReadonly h b (vbufferIteratorSetbyte h b pos byte).1
      (vbufferIteratorSetbyte h b pos byte).2.1 := by
  refine .of_remarked (iteratorSetbyte_wrote hb pos byte).remarked ?_
  unfold vbufferIteratorSetbyte
  split
  · exact fun _ _ => rfl
  rcases iteratorMmap_write hb pos (some 1) with ⟨heq, -⟩ | ⟨c, hc, off, hoff, -, -, hptr⟩
  · rw [heq]
    exact fun _ _ => rfl
  dsimp only
  split
  · exact fun _ _ => rfl
  rw [hptr]
  cases hw : c.flags.writable with
  | true =>
    exact store_readonly ha hc hw (by simpa using hoff)
  | false => exact fun _ _ => rfl

theorem setbyte_keeps (data : Sub) (offset : ℕ)
    (byte : UInt8) :
    KeepsReadonly h b (vbufferSetbyte h b data offset byte).1
      (vbufferSetbyte h b data offset byte).2.1 := by
  unfold vbufferSetbyte
  split
  · exact .refl h b
  · exact iteratorSetbyte_keeps hb ha _ byte

theorem setbits_keeps (data : Sub) (offset bits : ℕ)
    (bigendian : Bool) (num : ℤ) :
    KeepsReadonly h b (vbufferSetbits h b data offset bits bigendian num).1
      (vbufferSetbits h b data offset bits bigendian num).2.1 := by
  unfold vbufferSetbits
  split
  · exact .refl h b
  split
  · exact .refl h b
  dsimp only
  split_ifs
  · exact .refl h b
  · exact .refl h b
  · exact subWrite_keeps hb ha data _

end

end Write

/-! ## Numbers -/

/-- A number of `length` bytes written at `start` in the chunk goes past its end, over the place. -/
def Chunk.Overruns (c : Chunk) (start length : ℕ) (p : ℕ × ℕ) : Prop :=
  p.1 = c.data.addr ∧ c.offset + c.size ≤ p.2 ∧ p.2 < c.offset + start + length

/-- No number that starts in a writable chunk and fits in the buffer goes past the end of the chunk
over a read-only byte. A number of 8 bytes is 0, and may go over zeros. -/
def NumbersApart (h : Heap) (l : List Chunk) : Prop :=
  ∀ P c Q, l = P ++ c :: Q → c.flags.writable = true → ∀ start < c.size, ∀ length ∈ [2, 4, 8],
    start + length ≤ c.size + totalSize Q → ∀ p ∈ readonlyPlaces l, c.Overruns start length p →
      length = 8 ∧ h.byteAt p = some 0

section Numbers

variable {h : Heap} {b : Vbuffer}

theorem filter_first {α : Type*} {p : α → Bool} {x y : α} {l rest : List α}
    (heq : (x :: l).filter p = y :: rest) :
    (p x = true ∧ x = y) ∨ (p x = false ∧ l.filter p = y :: rest) := by
  cases hx : p x with
  | true =>
    rw [filter_cons_of_pos hx] at heq
    exact .inl ⟨rfl, (cons.inj heq).1⟩
  | false =>
    rw [filter_cons_of_neg (by simp [hx])] at heq
    exact .inr ⟨rfl, heq⟩

/-- `vbuffer_mmap` does not pass over the piece. -/
def mapped (piece : Chunk × ℕ × ℕ) : Bool := !(piece.1.flags.ctl || piece.2.2 == 0)

variable {c : Chunk} {n length : ℕ} {l : List Chunk} {data : Sub}

variable {start : ℕ}

theorem ne_zero_of_mapped (hm : mapped (c, start, n) = true) : n ≠ 0 := by
  simp only [mapped, Bool.not_eq_true', Bool.or_eq_false_iff, beq_eq_false_iff_ne] at hm
  exact hm.2

theorem rest_of_not_mapped (hc : c.flags.ctl = true → c.size = 0)
    (hm : mapped (c, start, n) = false) : c.size = 0 ∨ n = 0 := by
  simp only [mapped, Bool.not_eq_false', Bool.or_eq_true, beq_iff_eq] at hm
  exact hm.imp_left hc

variable {rest : List (Chunk × ℕ × ℕ)}

theorem Pieces.first {off : ℕ} {pieces : List (Chunk × ℕ × ℕ)} (hp : Pieces l off pieces)
    (hl : ∀ c ∈ l, c.flags.ctl = true → c.size = 0)
    (heq : pieces.filter mapped = (c, start, n) :: rest) :
    ∃ P Q, l = P ++ c :: Q ∧ totalSize P + start = off ∧ start < c.size := by
  induction hp with
  | nil => simp at heq
  | last hle =>
    rcases filter_first heq with ⟨hm, hfirst⟩ | ⟨-, heq⟩
    · have := ne_zero_of_mapped hm
      cases hfirst
      exact ⟨[], _, rfl, by simp, by omega⟩
    · simp at heq
  | cons ho _ ih =>
    obtain ⟨hd, hl⟩ := forall_mem_cons.1 hl
    rcases filter_first heq with ⟨hm, hfirst⟩ | ⟨hm, heq⟩
    · have := ne_zero_of_mapped hm
      cases hfirst
      exact ⟨[], _, rfl, by simp, by omega⟩
    · have := rest_of_not_mapped hd hm
      obtain ⟨P, Q, rfl, hoff, hlt⟩ := ih hl heq
      exact ⟨_ :: P, Q, rfl, by rw [totalSize_cons]; omega, hlt⟩

theorem availableTo_le {endId endoffset off : ℕ}
    (hend : ∀ c ∈ l, c.id = endId → endoffset ≤ c.size) (ho : ∀ c ∈ l.head?, off ≤ c.size)
    (hsize : availableTo endId endoffset l off = some length) : length ≤ totalSize l - off := by
  induction l generalizing off length with
  | nil =>
    rw [availableTo, Option.some.injEq] at hsize
    omega
  | cons d l ih =>
    have ho : off ≤ d.size := ho d rfl
    obtain ⟨hid, hend⟩ := forall_mem_cons.1 hend
    rw [availableTo] at hsize
    rw [totalSize_cons]
    split at hsize
    case isTrue h =>
      split at hsize
      · cases hsize
      · rw [Option.some.injEq] at hsize
        omega
    case isFalse =>
      obtain ⟨n, hn, rfl⟩ := Option.map_eq_some_iff.1 hsize
      have := ih hend (by simp) hn
      omega

theorem mmaps_first (hb : b.WF h) (heq : vbufferMmaps b data = (c, start, n) :: rest) :
    ∃ P Q, (_vbufferIteratorFix b data.begin).1.after = P ++ c :: Q ∧
      totalSize P + start = (_vbufferIteratorFix b data.begin).2 ∧ start < c.size := by
  exact (subIterate_pieces hb data).first
    (fun c hc => (hb.valid_body c (fix_after_mem hc)).ctlSize) heq

theorem subSize_le (hb : b.WF h) (hsize : vbufferSubSize b data = some length) :
    length ≤ totalSize (_vbufferIteratorFix b data.begin).1.after -
      (_vbufferIteratorFix b data.begin).2 := by
  unfold vbufferSubSize at hsize
  split at hsize
  · cases data with
    | sized begin len =>
      obtain rfl := Option.some.inj hsize
      exact Nat.min_le_right _ _
    | between begin «end» =>
      exact availableTo_le (fun c hc => fix_end_le hb «end» (fix_after_mem hc))
        (fix_head_le b begin) hsize
  · cases hsize

theorem first_piece (hb : b.WF h) (hsize : vbufferSubSize b data = some length)
    (heq : vbufferMmaps b data = (c, start, n) :: rest) :
    ∃ P Q, b.body = P ++ c :: Q ∧ start < c.size ∧ start + length ≤ c.size + totalSize Q := by
  obtain ⟨P, Q, hafter, hoff, hlt⟩ := mmaps_first hb heq
  have hle := subSize_le hb hsize
  rw [hafter, ← hoff, totalSize_append, totalSize_cons] at hle
  refine ⟨(_vbufferIteratorFix b data.begin).1.before ++ P, Q, ?_, hlt, by omega⟩
  rw [append_assoc, ← hafter, fix_body]

@[simp] theorem length_numberBytes (length : ℕ) (bigendian : Bool) (num : ℤ) :
    (numberBytes length bigendian num).length = length := by
  cases bigendian <;> simp [numberBytes]

theorem numberBytes_zero (length : ℕ) (bigendian : Bool) :
    numberBytes length bigendian 0 = replicate length 0 := by
  cases bigendian <;> simp [numberBytes]

variable {num : ℤ}

theorem numFits_eight (hfits : numFits num (8 * 8) = true) : num = 0 := by
  simpa [numFits, eq_comm] using hfits

theorem number_readonly (ha : ReadonlyApart b.body) (hn : NumbersApart h b.body)
    {P Q : List Chunk} (hbody : b.body = P ++ c :: Q) (hw : c.flags.writable = true)
    (hstart : start < c.size) (hle : start + length ≤ c.size + totalSize Q)
    (hsupported : length ∈ [1, 2, 4, 8]) (hfits : numFits num (length * 8) = true)
    (bigendian : Bool) :
    ∀ p ∈ readonlyPlaces b.body, (h.store c.data.addr (c.offset + start)
      (numberBytes length bigendian num)).byteAt p = h.byteAt p := by
  rintro p hp
  by_cases hin : p.1 = c.data.addr ∧ c.offset + start ≤ p.2 ∧ p.2 < c.offset + start + length
  · obtain ⟨haddr, hlo, hhi⟩ := hin
    -- a read-only byte under the number is behind the chunk
    have hover : c.Overruns start length p := by
      refine ⟨haddr, not_lt.1 fun hlt => ?_, hhi⟩
      exact ha c (by simp [hbody]) hw p (Chunk.mem_places.2 ⟨haddr, by omega, hlt⟩) hp
    have hlength : length ∈ [2, 4, 8] := by
      have := hover.2
      simp only [mem_cons, not_mem_nil, or_false] at hsupported ⊢
      omega
    obtain ⟨rfl, hzero⟩ := hn P c Q hbody hw start hstart length hlength hle p hp hover
    rw [numFits_eight hfits, numberBytes_zero, hzero]
    refine byteAt_store haddr hlo (by rw [hzero]; rfl) ?_
    rw [getElem?_replicate, if_pos (by omega)]
  · exact byteAt_store_of_not (by rwa [length_numberBytes])

theorem setnumber_keeps (hb : b.WF h) (ha : ReadonlyApart b.body) (hn : NumbersApart h b.body)
    (data : Sub) (bigendian : Bool) (num : ℤ) :
    KeepsReadonly h b (vbufferSetnumber h b data bigendian num).1
      (vbufferSetnumber h b data bigendian num).2.1 := by
  refine .of_remarked (setnumber_wrote hb data bigendian num).remarked ?_
  unfold vbufferSetnumber
  cases hsize : vbufferSubSize b data with
  | none => exact fun _ _ => rfl
  | some length =>
  dsimp only
  split
  · exact fun _ _ => rfl
  next hfits =>
  simp only [Bool.or_eq_true, Bool.not_eq_true', not_or, Bool.not_eq_false] at hfits
  split
  · cases hmaps : vbufferMmaps b data with
    | nil => exact fun _ _ => rfl
    | cons piece rest =>
    obtain ⟨c, start, n⟩ := piece
    obtain ⟨P, Q, hbody, hstart, hle⟩ := first_piece hb hsize hmaps
    cases hw : c.flags.writable with
    | false =>
      simp only [getData_readonly hw, implies_true]
    | true =>
      simp only [getData_writable hw]
      split
      case isTrue hsupported =>
        exact number_readonly ha hn hbody hw hstart hle hsupported hfits.2 bigendian
      case isFalse => exact fun _ _ => rfl
  · split
    · exact (subWrite_keeps hb ha data _).bytes
    · exact fun _ _ => rfl

end Numbers

/-! ## Every call -/

def ReadonlyShort (l : List Chunk) : Prop := ∀ c ∈ l, c.flags.writable = false → c.size ≤ 1

/-- **Read-only bytes are protected.** No call removes or changes one, and a write aimed at one
fails. -/
structure ProtectsReadonly (h : Heap) (b : Vbuffer) : Prop where
  kept : ∀ call : EditCall, KeepsReadonly h b (call.apply h b).1 (call.apply h b).2.1
  mmapNull : ∀ pos maxsize c off, writeTarget b pos = some (c, off) → c.flags.writable = false →
    (vbufferIteratorMmap b pos maxsize true).2.2.2.isNull = true
  iteratorSetbyteFails : ∀ pos byte c off, writeTarget b pos = some (c, off) →
    c.flags.writable = false → (vbufferIteratorSetbyte h b pos byte).2.2.2 = .ret false
  setbyteFails : ∀ data offset byte c off,
    writeTarget b (vbufferIteratorAdvance b (vbufferIteratorCopy data.begin) offset).1 =
      some (c, off) → c.flags.writable = false →
    (vbufferSetbyte h b data offset byte).2.2 = .ret false

section Calls

variable {h h' : Heap} {b b' : Vbuffer}

theorem KeepsReadonly.of_mem (hheld : (readonlyPlaces b.body).Subperm (readonlyPlaces b'.body))
    (hmem : h'.mem = h.mem) : KeepsReadonly h b h' b' :=
  ⟨hheld, fun p _ => by rw [Heap.byteAt, Heap.byteAt, hmem]⟩

theorem insert_subperm (k : Cut) (l : List Chunk) :
    (readonlyPlaces k.toVbuffer.body).Subperm (readonlyPlaces (k.insert l).body) := by
  refine List.Sublist.subperm ?_
  simp only [Cut.toVbuffer, Cut.insert, readonlyPlaces_append]
  exact (sublist_append_left _ _).append_right _

theorem insert_keeps (h : Heap) (b : Vbuffer) (pos : Iterator) (d : Vbuffer) :
    KeepsReadonly h b (vbufferIteratorInsert h b pos d).heap
      (vbufferIteratorInsert h b pos d).buffer := by
  unfold vbufferIteratorInsert
  split
  case isFalse => exact .refl h b
  split
  · exact .refl h b
  rcases hsplit : _vbufferIteratorSplit h b pos true with ⟨h1, _ | k⟩
  · rw [split_none hsplit]
    exact .refl h b
  · refine .of_mem ?_ (split_mem hsplit)
    rw [← split_readonly hsplit, ← readonlyPlaces_append]
    exact insert_subperm k d.body

theorem markModified_readonly (k : Cut) :
    readonlyPlaces k.markModified.toVbuffer.body = readonlyPlaces k.toVbuffer.body := by
  obtain ⟨P, Q, e⟩ := k
  cases Q with
  | nil => rfl
  | cons c Q =>
    simp only [Cut.markModified, Cut.mapChunk, Cut.toVbuffer, readonlyPlaces_append]
    rw [readonlyPlaces_cons, readonlyPlaces_cons c Q,
      readonlyPlaces_congr (c := c.markModified) (d := c) rfl rfl]

theorem replace_keeps (hf : ReadonlyFirst b.body) (h : Heap) (data : Sub) (d : Vbuffer) :
    KeepsReadonly h b (vbufferReplace h b data d).1 (vbufferReplace h b data d).2.1 := by
  obtain ⟨hmem, hro, hsource⟩ := extract_readonly hf h data
  unfold vbufferReplace
  dsimp only
  rcases hext : (_vbufferExtract h b data true false).extracted with _ | ⟨ext, k⟩
  · exact .of_mem (by rw [hro]) hmem
  · refine .of_mem ?_ hmem
    rw [← hro, hsource ext k hext, ← markModified_readonly]
    exact insert_subperm k.markModified d.body

theorem call_keeps (hb : b.WF h) (hf : ReadonlyFirst b.body) (ha : ReadonlyApart b.body)
    (hn : NumbersApart h b.body) (call : EditCall) :
    KeepsReadonly h b (call.apply h b).1 (call.apply h b).2.1 := by
  cases call with
  | insert position buffer => exact insert_keeps h b position buffer
  | append buffer =>
    refine .of_mem (List.Sublist.subperm ?_) rfl
    simp only [EditCall.apply, vbufferAppend, readonlyPlaces_append]
    exact sublist_append_left _ _
  | erase data =>
    obtain ⟨hmem, hro, -⟩ := extract_readonly hf h data
    exact .of_mem (by rw [EditCall.apply, vbufferErase, hro]) hmem
  | extract data =>
    obtain ⟨hmem, hro, -⟩ := extract_readonly hf h data
    exact .of_mem (by rw [EditCall.apply, vbufferExtract, hro]) hmem
  | replace data buffer => exact replace_keeps hf h data buffer
  | subWrite data src => exact subWrite_keeps hb ha data src
  | iteratorSetbyte position byte => exact iteratorSetbyte_keeps hb ha position byte
  | setbyte data offset byte => exact setbyte_keeps hb ha data offset byte
  | setnumber data bigendian num => exact setnumber_keeps hb ha hn data bigendian num
  | setbits data offset bits bigendian num => exact setbits_keeps hb ha data offset bits bigendian num

variable {pos : Iterator} {c : Chunk} {off : ℕ}

theorem mmap_null (hb : b.WF h) (hs : ReadonlyShort b.body) (maxsize : Option ℕ)
    (ht : writeTarget b pos = some (c, off)) (hro : c.flags.writable = false) :
    (vbufferIteratorMmap b pos maxsize true).2.2.2.isNull = true := by
  rcases iteratorMmap_write hb pos maxsize with ⟨heq, -⟩ | ⟨d, hd, off', hoff, ht', -, hptr⟩
  · rw [heq]
    rfl
  · obtain ⟨rfl, rfl⟩ : c = d ∧ off = off' := by simpa [ht] using ht'
    obtain rfl : off = 0 := by
      have := hs c hd hro
      omega
    rw [hptr, hro]
    rfl

theorem iteratorSetbyte_fails (hb : b.WF h) (hs : ReadonlyShort b.body)
    (byte : UInt8) (ht : writeTarget b pos = some (c, off))
    (hro : c.flags.writable = false) :
    (vbufferIteratorSetbyte h b pos byte).2.2.2 = .ret false := by
  unfold vbufferIteratorSetbyte
  split
  · rfl
  dsimp only
  rw [mmap_null hb hs (some 1) ht hro]
  rfl

end Calls

/-! ## What the protection needs -/

section Needed

variable {h : Heap} {b : Vbuffer} {P Q : List Chunk} {c : Chunk} {start : ℕ}

theorem fix_at (hb : b.WF h) (hbody : b.body = P ++ c :: Q) (hstart : start ≤ c.size) :
    _vbufferIteratorFix b ⟨c.id, start, 0, false⟩ = (⟨P, c :: Q, b.last⟩, start) := by
  have hc : c.id ∉ idsOf P := by
    have hnodup := hb.nodup_body
    rw [hbody, idsOf_append, idsOf_cons] at hnodup
    exact fun hmem => (disjoint_of_nodup_append hnodup) hmem mem_cons_self
  have hseek : b.seek c.id = ⟨P, c :: Q, b.last⟩ := by
    rw [← Vbuffer.seek_mk hc, ← hbody]
  unfold _vbufferIteratorFix
  simp only [hseek]
  exact if_neg (not_lt.2 hstart)

theorem check_at (hbody : b.body = P ++ c :: Q) :
    _vbufferIteratorCheck b ⟨c.id, start, 0, false⟩ = true :=
  @check_copy b ⟨c.id, start, 0, false⟩ ((mem_idsOf _).2 ⟨c, by simp [Vbuffer.all, hbody], rfl⟩)

variable {length : ℕ}

theorem mmaps_at (hb : b.WF h) (hbody : b.body = P ++ c :: Q) (hstart : start < c.size)
    (hlength : 0 < length) :
    ∃ rest, vbufferMmaps b (.sized ⟨c.id, start, 0, false⟩ length) =
      (c, start, min length (c.size - start)) :: rest := by
  have hctl : c.flags.ctl = false := by
    by_contra hctl
    have := (hb.valid_body c (by simp [hbody])).ctlSize (by simpa using hctl)
    omega
  rw [vbufferMmaps, _vbufferSubIterate, fix_at hb hbody hstart.le]
  dsimp only
  rw [subIterateSized, if_neg (by omega)]
  split
  · rw [filter_cons_of_pos (by simp [hctl]; omega), Nat.min_eq_right (by omega)]
    exact ⟨_, rfl⟩
  · rw [filter_cons_of_pos (by simp [hctl]; omega), Nat.min_eq_left (by omega)]
    exact ⟨_, rfl⟩

/-- Erasing from a writable chunk to past the end takes all the read-only bytes behind it. -/
theorem erase_past (hb : b.WF h) (hbody : b.body = P ++ c :: Q) (hw : c.flags.writable = true) :
    readonlyPlaces (vbufferErase h b
      (.sized ⟨c.id, 0, 0, false⟩ (totalSize b.body + 1))).2.1.body = readonlyPlaces P := by
  have hsplit : _vbufferIteratorSplit h b (vbufferIteratorCopy ⟨c.id, 0, 0, false⟩) true =
      (h, some ⟨P, c.markIf true :: Q, b.last⟩) := by
    unfold _vbufferIteratorSplit
    rw [vbufferIteratorCopy, fix_at hb hbody (Nat.zero_le _)]
    simp [Cut.chunk, hw, splitChunk]
  have hpast : totalSize (c.markIf true :: Q) < totalSize b.body + 1 := by
    rw [hbody, totalSize_append, totalSize_cons, totalSize_cons, Chunk.markIf_size]
    omega
  -- what the loop leaves are control chunks
  have hleft : readonlyPlaces (((c.markIf true :: Q).foldl (Passed.pass false) ⟨[], [], []⟩).moved ++
      ((c.markIf true :: Q).foldl (Passed.pass false) ⟨[], [], []⟩).skipped) = [] := by
    refine readonlyPlaces_eq_nil fun d hd => .inr ?_
    have hctl := Passed.foldl_ctl false (c.markIf true :: Q) (by simp) d hd
    have hmem : d ∈ c.markIf true :: Q := by
      have hperm := Passed.foldl_perm (s := ⟨[], [], []⟩) false (c.markIf true :: Q)
      simpa using hperm.subset (mem_append_left _ hd)
    rcases mem_cons.1 hmem with rfl | hQ
    · rw [Chunk.markIf_size]
      exact (hb.valid_body c (by simp [hbody])).ctlSize (by simpa using hctl)
    · exact (hb.valid_body d (by simp [hbody, hQ])).ctlSize hctl
  rw [vbufferErase, _vbufferExtract, _vbufferSubCheck, check_at hbody, if_pos rfl]
  simp only [extractFrom, hsplit, Option.isSome_some, Bool.true_or, if_true]
  rw [extractLoop_past (.inr hpast)]
  simp only [extractDone, Bool.false_eq_true, if_false, Cut.toVbuffer, append_nil,
    readonlyPlaces_append, append_assoc]
  rw [← readonlyPlaces_append, hleft, append_nil]

theorem readonlyFirst_of_protects (hb : b.WF h) (hp : ProtectsReadonly h b) :
    ReadonlyFirst b.body := by
  refine pairwise_iff_forall_sublist.2 ?_
  rintro a d hsub hw
  obtain ⟨r1, r2, hbody, ha, hd⟩ := cons_sublist_iff.1 hsub
  obtain ⟨P, M, rfl⟩ := append_of_mem ha
  rw [append_assoc, cons_append] at hbody
  have hle := (hp.kept (.erase (.sized ⟨a.id, 0, 0, false⟩ (totalSize b.body + 1)))).held.length_le
  rw [EditCall.apply] at hle
  rw [erase_past hb hbody hw, hbody, readonlyPlaces_append, length_append] at hle
  by_contra hcon
  simp only [not_or, Bool.not_eq_true] at hcon
  -- the first byte of `d` is gone
  have hmem : (d.data.addr, d.offset) ∈ readonlyPlaces (a :: (M ++ r2)) :=
    mem_readonlyPlaces.2 ⟨d, by simp [singleton_sublist.1 hd], hcon.1,
      Chunk.mem_places.2 ⟨rfl, le_rfl, by dsimp only; omega⟩⟩
  have := length_pos_of_mem hmem
  omega

theorem byteAt_isSome (hc : c.Valid h.mem) {p : ℕ × ℕ} (hp : p ∈ c.places) :
    (h.byteAt p).isSome = true := by
  obtain ⟨haddr, hlo, hhi⟩ := Chunk.mem_places.1 hp
  have hlen := hc.inBlock
  rw [Chunk.bytes, length_take, length_drop] at hlen
  rw [Heap.byteAt, haddr, getElem?_eq_getElem (by omega)]
  rfl

theorem readonlyApart_of_protects (hb : b.WF h) (hp : ProtectsReadonly h b) :
    ReadonlyApart b.body := by
  rintro c hc hw p hplace hro
  obtain ⟨P, Q, hbody⟩ := append_of_mem hc
  obtain ⟨haddr, hlo, hhi⟩ := Chunk.mem_places.1 hplace
  have hsome := byteAt_isSome (hb.valid_body c hc) hplace
  obtain ⟨x, hx⟩ := Option.isSome_iff_exists.1 hsome
  obtain ⟨rest, hmaps⟩ := mmaps_at hb hbody (show p.2 - c.offset < c.size by omega) Nat.one_pos
  have hkept := (hp.kept (.subWrite (.sized ⟨c.id, p.2 - c.offset, 0, false⟩ 1) [x + 1])).bytes p hro
  have hwrite : (vbufferSubWrite h b (.sized ⟨c.id, p.2 - c.offset, 0, false⟩ 1) [x + 1]).1 =
      h.store c.data.addr (c.offset + (p.2 - c.offset)) [x + 1] := by
    rw [vbufferSubWrite, _vbufferSubCheck, check_at hbody, if_pos rfl, hmaps, Nat.min_eq_left (by omega)]
    cases rest <;> simp [subWriteLoop, vbufferChunkGetData, hw]
  rw [EditCall.apply] at hkept
  have hfirst : [x + 1][p.2 - (c.offset + (p.2 - c.offset))]? = some (x + 1) := by
    rw [show p.2 - (c.offset + (p.2 - c.offset)) = 0 by omega]
    rfl
  rw [hwrite, byteAt_store haddr (by omega) hsome hfirst, hx] at hkept
  have : x + 1 ≠ x := by simp
  exact this (Option.some.inj hkept)

theorem writeTarget_at (hb : b.WF h) (hbody : b.body = P ++ c :: Q) (hstart : start < c.size) :
    writeTarget b ⟨c.id, start, 0, false⟩ = some (c, start) := by
  have hctl : c.flags.ctl = false := by
    by_contra hctl
    have := (hb.valid_body c (by simp [hbody])).ctlSize (by simpa using hctl)
    omega
  rw [writeTarget, fix_at hb hbody hstart.le]
  simp [iteratorMmapLoop, hctl, hstart]

theorem readonlyShort_of_protects (hb : b.WF h) (hp : ProtectsReadonly h b) :
    ReadonlyShort b.body := by
  rintro c hc hro
  by_contra hlong
  obtain ⟨P, Q, hbody⟩ := append_of_mem hc
  have htarget := writeTarget_at hb hbody (show 1 < c.size by omega)
  have hnull := hp.mmapNull ⟨c.id, 1, 0, false⟩ none c 1 htarget hro
  rcases iteratorMmap_write hb ⟨c.id, 1, 0, false⟩ none with ⟨-, hnone⟩ | ⟨d, -, off, -, ht, -, hptr⟩
  · simp [check_at hbody, htarget] at hnone
  · obtain ⟨rfl, rfl⟩ : c = d ∧ 1 = off := by simpa [htarget] using ht
    rw [hptr, hro] at hnull
    cases hnull

theorem numFits_of_lt {num bits : ℕ} (hbits : bits < 64) (hlt : num < 2 ^ bits) :
    numFits num bits = true := by
  rw [numFits, Int.natAbs_natCast, Nat.mod_eq_of_lt hbits, Nat.and_two_pow_sub_one_eq_mod,
    Nat.mod_eq_of_lt hlt]
  exact decide_eq_true rfl

theorem getElem_numberBytes {i : ℕ} (hi : i < length) (num : ℤ) :
    (numberBytes length false num)[i]? = some (UInt8.ofNat ((num / 256 ^ i) % 256).toNat) := by
  simp [numberBytes, hi]

theorem exists_number {i : ℕ} (hlength : length ∈ [2, 4, 8]) (hi : i < length) {x : UInt8}
    (hx : length = 8 → x ≠ 0) :
    ∃ num : ℤ, numFits num (length * 8) = true ∧
      ∃ y, (numberBytes length false num)[i]? = some y ∧ y ≠ x := by
  by_cases hzero : x = 0
  · -- a power of 256, for the lengths at which every number fits
    have hshort : length * 8 < 64 := by
      have : length ≠ 8 := fun h8 => hx h8 hzero
      simp only [mem_cons, not_mem_nil, or_false] at hlength
      omega
    refine ⟨((256 ^ i : ℕ) : ℤ), numFits_of_lt hshort ?_, 1, ?_, ?_⟩
    · rw [show (256 : ℕ) = 2 ^ 8 from rfl, ← pow_mul]
      exact Nat.pow_lt_pow_right (by omega) (by omega)
    · rw [getElem_numberBytes hi]
      push_cast
      rw [Int.ediv_self (by positivity)]
      rfl
    · rw [hzero]
      decide
  · refine ⟨0, ?_, 0, ?_, Ne.symm hzero⟩
    · simp [numFits]
    · rw [numberBytes_zero, getElem?_replicate, if_pos hi]

/-- A number over the end of a chunk: the test for a flat range is the wrong way round. -/
theorem numbersApart_of_protects (hb : b.WF h) (hp : ProtectsReadonly h b) :
    NumbersApart h b.body := by
  rintro P c Q hbody hw start hstart length hlength hle p hro ⟨haddr, hlo, hhi⟩
  by_contra hcon
  obtain ⟨d, hd, -, hplace⟩ := mem_readonlyPlaces.1 hro
  have hsome := byteAt_isSome (hb.valid_body d hd) hplace
  obtain ⟨x, hx⟩ := Option.isSome_iff_exists.1 hsome
  have hpos : 0 < length ∧ length ≤ 8 := by
    simp only [mem_cons, not_mem_nil, or_false] at hlength
    omega
  obtain ⟨num, hfits, y, hy, hne⟩ := exists_number (i := p.2 - (c.offset + start)) (x := x) hlength
    (by omega) fun h8 hzero => hcon ⟨h8, hx.trans (by rw [hzero])⟩
  obtain ⟨rest, hmaps⟩ := mmaps_at hb hbody hstart hpos.1
  have hcheck : _vbufferSubCheck b (.sized ⟨c.id, start, 0, false⟩ length) = true := check_at hbody
  have hsize : vbufferSubSize b (.sized ⟨c.id, start, 0, false⟩ length) = some length := by
    rw [vbufferSubSize, hcheck, if_pos rfl]
    simp only [fix_at hb hbody hstart.le, totalSize_cons]
    rw [Nat.min_eq_left (by omega)]
  have hflat : vbufferSubIsflat b (.sized ⟨c.id, start, 0, false⟩ length) = true := by
    rw [vbufferSubIsflat, hcheck, if_pos rfl]
    simp only [Sub.begin, fix_at hb hbody hstart.le, Cut.chunk, headD_cons]
    exact decide_eq_true (by omega)
  have hwrite : (vbufferSetnumber h b (.sized ⟨c.id, start, 0, false⟩ length) false num).1 =
      h.store c.data.addr (c.offset + start) (numberBytes length false num) := by
    have hsupported : length ∈ [1, 2, 4, 8] := mem_cons_of_mem 1 hlength
    unfold vbufferSetnumber
    simp only [hsize, hfits, hflat, hmaps, hsupported, vbufferChunkGetData, hw]
    simp [not_lt.2 hpos.2]
  have hkept := (hp.kept (.setnumber (.sized ⟨c.id, start, 0, false⟩ length) false num)).bytes p hro
  rw [EditCall.apply] at hkept
  rw [hwrite, byteAt_store haddr (by omega) hsome hy, hx] at hkept
  exact hne (Option.some.inj hkept)

end Needed

/-! ## The result -/

/-- **Protection of read-only chunks.** The calls keep the read-only bytes, and writes to them fail,
for exactly the buffers in which they come first, in chunks of one byte, in no writable chunk and
not behind one within the reach of a number. -/
theorem readonly_protected_iff {h : Heap} {b : Vbuffer} (hb : b.WF h) : ProtectsReadonly h b ↔
      ReadonlyFirst b.body ∧ ReadonlyShort b.body ∧ ReadonlyApart b.body ∧
        NumbersApart h b.body := by
  constructor
  · rintro hp
    exact ⟨readonlyFirst_of_protects hb hp, readonlyShort_of_protects hb hp,
      readonlyApart_of_protects hb hp, numbersApart_of_protects hb hp⟩
  · rintro ⟨hf, hs, ha, hn⟩
    refine ⟨call_keeps hb hf ha hn, fun pos maxsize c off => mmap_null hb hs maxsize,
      fun pos byte c off => iteratorSetbyte_fails hb hs byte, ?_⟩
    rintro data offset byte c off ht hro
    unfold vbufferSetbyte
    split
    · rfl
    · exact iteratorSetbyte_fails hb hs byte ht hro

/-- The heap of `guardedBuffer` and `mixedBuffer`. -/
def guardedHeap : Heap :=
  ⟨9, fun a => if a = 1 then [104, 101, 108, 108, 111] else if a = 2 then [104] else []⟩

def guardedBuffer : Vbuffer :=
  ⟨[⟨3, ⟨false, false, false, false⟩, .basic 2, 0, 1⟩, ⟨4, ⟨false, false, true, false⟩, .basic 1, 1, 4⟩],
    endChunk 8 true⟩

theorem guardedBuffer_wf : guardedBuffer.WF guardedHeap := by
  decide

/-- The buffer meets the conditions, so that its read-only byte is safe. -/
theorem readonly_protected_guarded :
    guardedBuffer.WF guardedHeap ∧ readonlyPlaces guardedBuffer.body = [(2, 0)] ∧
      ProtectsReadonly guardedHeap guardedBuffer := by
  refine ⟨guardedBuffer_wf, by decide, (readonly_protected_iff guardedBuffer_wf).2 ⟨?_, ?_, ?_, ?_⟩⟩
  · unfold ReadonlyFirst
    decide
  · unfold ReadonlyShort
    decide
  · unfold ReadonlyApart
    decide
  · -- the only writable chunk is in another block
    rintro P c Q hbody hw start - length - - p hp ⟨haddr, -, -⟩
    have hc : c ∈ guardedBuffer.body := by simp [hbody]
    obtain rfl : p = (2, 0) := by simpa using (show p ∈ [(2, 0)] from hp)
    have hblock : ∀ c ∈ guardedBuffer.body, c.flags.writable = true → c.data.addr ≠ 2 := by decide
    exact absurd haddr.symm (hblock c hc hw)

/-- The bytes "hello" in one block, the middle of it read-only. -/
def mixedBuffer : Vbuffer :=
  ⟨[⟨3, ⟨false, false, true, false⟩, .basic 1, 0, 2⟩, ⟨4, ⟨false, false, false, false⟩, .basic 1, 2, 2⟩,
    ⟨5, ⟨false, false, true, false⟩, .basic 1, 4, 1⟩], endChunk 8 true⟩

theorem mixedBuffer_wf : mixedBuffer.WF guardedHeap := by
  decide

/-- Erasing the buffer takes the read-only bytes with it; a number of two bytes at the end of the
first chunk goes over one of them; setting the second one faults; setting its bits reports success.
-/
theorem readonly_lost :
    mixedBuffer.WF guardedHeap ∧ readonlyPlaces mixedBuffer.body = [(1, 2), (1, 3)] ∧
    (vbufferErase guardedHeap mixedBuffer (vbufferSubCreate mixedBuffer 0 (some 5))).2.2 = true ∧
    readonlyPlaces (vbufferErase guardedHeap mixedBuffer
      (vbufferSubCreate mixedBuffer 0 (some 5))).2.1.body = [] ∧
    guardedHeap.byteAt (1, 2) = some 108 ∧
    (vbufferSetnumber guardedHeap mixedBuffer
      (.sized ⟨3, 1, 0, false⟩ 2) true 0).1.byteAt (1, 2) = some 0 ∧
    (vbufferIteratorMmap mixedBuffer ⟨4, 1, 0, false⟩ none true).2.2.2.isNull = false ∧
    (vbufferIteratorSetbyte guardedHeap mixedBuffer ⟨4, 1, 0, false⟩ 0).2.2.2 = .fault ∧
    (vbufferSetbits guardedHeap mixedBuffer (.sized ⟨4, 1, 0, false⟩ 1) 0 1 true 1).2.2 = true :=
  ⟨mixedBuffer_wf, by decide⟩

end Haka
