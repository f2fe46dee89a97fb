import Haka.Vbuffer.Read

/-!
# Subs and the end of their range

A sub is a range of a buffer, but only the functions that walk its chunks stop at its end. The
others start at its beginning and go as far as the buffer does:

1. `vbuffer_sub_check_size` of a sized sub compares with the bytes of the buffer
   (`checkSize_exact_iff`).
2. `vbuffer_sub_sub` takes an offset and a length from the beginning of the sub
   (`subSub_sized_iff`); with the length `ALL` it keeps the end of the sub, and an offset behind
   that makes a sub that ends before it begins (`subSub_all_iff`).
3. `vbuffer_getbyte` and `vbuffer_setbyte` advance an iterator from the beginning
   (`getbyte_refuses_iff`, `setbyte_refuses_iff`).
-/

namespace Haka

open List

/-! ## The functions -/

def vbufferSubEnd (b : Vbuffer) : Sub → Iterator
  | .sized begin length => (vbufferIteratorAdvance b (vbufferIteratorCopy begin) length).1
  | .between _ «end» => vbufferIteratorCopy «end»

/-- `vbuffer_sub_position`; an offset `none` is `ALL`. -/
def vbufferSubPosition (b : Vbuffer) (data : Sub) : Option ℕ → Iterator
  | none => vbufferSubEnd b data
  | some offset =>
    let iter := vbufferIteratorCopy data.begin
    if offset > 0 then (vbufferIteratorAdvance b iter offset).1 else iter

/-- `vbuffer_sub_sub`; the length is stored in 32 bits. -/
def vbufferSubSub (b : Vbuffer) (data : Sub) (offset length : Option ℕ) : Sub :=
  let begin := vbufferSubPosition b data offset
  match length with
  | none => .between begin (vbufferSubPosition b data none)
  | some length => .sized begin (length % 2 ^ 32)

/-- `vbuffer_iterator_getbyte`; `-1` is 255. -/
def vbufferIteratorGetbyte (h : Heap) (b : Vbuffer) (pos : Iterator) : Iterator × UInt8 :=
  if !_vbufferIteratorCheck b pos then (pos, 255)
  else
    let (_, pos, length, ptr) := vbufferIteratorMmap b pos (some 1) false
    if ptr.isNull || decide (length < 1) then (pos, 255)
    else
      match ptr with
      | .block addr offset => (pos, (h.mem addr).getD offset 0)
      -- `vbuffer_chunk_get_data` never refuses a read
      | .absolute _ => (pos, 255)

def vbufferGetbyte (h : Heap) (b : Vbuffer) (data : Sub) (offset : ℕ) : UInt8 :=
  if !_vbufferIteratorCheck b data.begin then 255
  else
    let iter := (vbufferIteratorAdvance b (vbufferIteratorCopy data.begin) offset).1
    (vbufferIteratorGetbyte h b iter).2

/-! ## The size of a sub -/

section CheckSize

variable {h : Heap} {b : Vbuffer} {data : Sub} {lo hi : ℕ}

theorem checkSize_sized {begin : Iterator} (length : ℕ) (minsize size : Option ℕ) (hb : b.WF h)
    (hbegin : b.InRange begin) :
    (vbufferSubCheckSize b (.sized begin length) minsize size).1 =
      reaches (some (minsize.getD length)) (totalSize b.body - b.offsetOf begin) := by
  simp [vbufferSubCheckSize, _vbufferSubCheck, hbegin.check, checkAvailable_spec _ _ hb hbegin]

theorem checkSize_between {begin «end» : Iterator} (minsize size : Option ℕ) (hb : b.WF h)
    (hbegin : b.InRange begin) (hend : b.InRange «end»)
    (hle : b.offsetOf begin ≤ b.offsetOf «end») (ho : b.Ordered (.between begin «end»)) :
    (vbufferSubCheckSize b (.between begin «end») minsize size).1 =
      reaches minsize (b.offsetOf «end» - b.offsetOf begin) := by
  simp [vbufferSubCheckSize, _vbufferSubCheck, hbegin.check, hend.check,
    checkAvailable_between _ _ hb hbegin hend hle ho]

/-- When `vbuffer_sub_check_size` compares with the size of the sub: a sized sub must not be shorter
than the size to reach if the buffer is not. -/
def CheckSizeExact (b : Vbuffer) (data : Sub) (lo : ℕ) (minsize : Option ℕ) : Prop :=
  match data, minsize with
  | .between _ _, _ => True
  | .sized _ length, some minsize => minsize ≤ length ∨ totalSize b.body - lo < minsize
  | .sized _ length, none => totalSize b.body - lo < length

theorem checkSize_exact_iff (hb : b.WF h) (hc : b.Covers data lo hi) (ho : b.Ordered data)
    (minsize size : Option ℕ) :
    (vbufferSubCheckSize b data minsize size).1 = reaches minsize (hi - lo) ↔
      CheckSizeExact b data lo minsize := by
  cases hc with
  | @sized begin length hbegin =>
    rw [checkSize_sized length minsize size hb hbegin]
    cases minsize with
    | none =>
      simp only [Option.getD_none, reaches, CheckSizeExact, decide_eq_false_iff_not]
      omega
    | some m =>
      simp only [Option.getD_some, reaches, CheckSizeExact, decide_eq_decide]
      omega
  | between hbegin hend _ hle =>
    rw [checkSize_between minsize size hb hbegin hend hle ho]
    exact ⟨fun _ => trivial, fun _ => rfl⟩

end CheckSize

/-! ## The byte at an offset -/

/-- The chunk that holds the byte at a position. -/
structure Vbuffer.HoldsAt (b : Vbuffer) (p : ℕ) (c : Chunk) : Prop where
  mem : c ∈ b.body
  start : sizeBefore b.body c.id ≤ p
  lt : p < sizeBefore b.body c.id + c.size

section Bytes

variable {h : Heap} {b : Vbuffer} {data : Sub} {lo hi : ℕ}

theorem Vbuffer.HoldsAt.unique {p : ℕ} {c d : Chunk} (hb : b.WF h) (hc : b.HoldsAt p c)
    (hd : b.HoldsAt p d) : c = d := by
  -- a chunk that stands behind another one starts where that one ends, or later
  have hafter : ∀ {x y : Chunk} {P R : List Chunk}, b.body = P ++ x :: R → y ∈ R →
      sizeBefore b.body x.id + x.size ≤ sizeBefore b.body y.id := by
    intro x y P R hbody hy
    have hnd := hb.nodup_body
    rw [hbody, idsOf_append, nodup_append, idsOf_cons, nodup_cons] at hnd
    have hyR : y.id ∈ idsOf R := (mem_idsOf _).2 ⟨y, hy, rfl⟩
    have hx : x.id ∉ idsOf P := fun hm => hnd.2.2 _ hm x.id (by simp) rfl
    have hyP : y.id ∉ idsOf (P ++ [x]) := by
      have h1 : y.id ∉ idsOf P := fun hm => hnd.2.2 _ hm y.id (by simp [hyR]) rfl
      have h2 : y.id ≠ x.id := fun heq => hnd.2.1.1 (heq ▸ hyR)
      simpa using And.intro h1 h2
    rw [hbody, sizeBefore_middle rfl hx, append_cons, sizeBefore_append_of_notMem hyP,
      totalSize_append, totalSize_cons, totalSize_nil]
    omega
  obtain ⟨P, R, hbody⟩ := append_of_mem hc.mem
  have hmem := hd.mem
  rw [hbody, mem_append, mem_cons] at hmem
  have hc1 := hc.start
  have hc2 := hc.lt
  have hd1 := hd.start
  have hd2 := hd.lt
  rcases hmem with hP | rfl | hR
  · obtain ⟨P1, P2, rfl⟩ := append_of_mem hP
    have := hafter (x := d) (y := c) (P := P1) (R := P2 ++ c :: R) (by rw [hbody]; simp) (by simp)
    omega
  · rfl
  · have := hafter hbody hR
    omega

theorem Vbuffer.HoldsAt.lt_total {p : ℕ} {c : Chunk} (hb : b.WF h) (hc : b.HoldsAt p c) :
    p < totalSize b.body := by
  obtain ⟨P, R, hbody⟩ := append_of_mem hc.mem
  have hnot : c.id ∉ idsOf P := by
    have hnd := hb.nodup_body
    rw [hbody, idsOf_append, nodup_append] at hnd
    exact fun hm => hnd.2.2 _ hm c.id (by simp) rfl
  have hlt := hc.lt
  rw [hbody, sizeBefore_middle rfl hnot] at hlt
  rw [hbody, totalSize_append, totalSize_cons]
  omega

theorem iteratorMmapLoop_spec {Q : List Chunk} {off : ℕ}
    (hQ : ∀ c ∈ Q, c.flags.ctl = true → c.size = 0) (ho : ∀ c ∈ Q.head?, off ≤ c.size) :
    (totalSize Q ≤ off ∧ iteratorMmapLoop Q off = none) ∨
      ∃ M c R off', Q = M ++ c :: R ∧ iteratorMmapLoop Q off = some (c, off', R) ∧
        totalSize M + off' = off ∧ off' < c.size := by
  induction Q generalizing off with
  | nil => exact .inl ⟨by simp, rfl⟩
  | cons c Q ih =>
    obtain ⟨hc, hQ⟩ := forall_mem_cons.1 hQ
    have ho : off ≤ c.size := ho c rfl
    rw [iteratorMmapLoop]
    by_cases hlt : off < c.size
    · have hctl : c.flags.ctl = false := by
        cases hctl : c.flags.ctl with
        | false => rfl
        | true =>
          have := hc hctl
          omega
      right
      refine ⟨[], c, Q, off, rfl, ?_, by simp, hlt⟩
      rw [if_pos (by simpa [hctl] using Nat.sub_pos_of_lt hlt)]
    · rw [if_neg (by simp; omega)]
      obtain ⟨hsize, hloop⟩ | ⟨M, d, R, off', rfl, hloop, hsum, hd⟩ := @ih 0 hQ (by simp)
      · exact .inl ⟨by rw [totalSize_cons]; omega, hloop⟩
      · exact .inr ⟨c :: M, d, R, off', rfl, hloop, by rw [totalSize_cons]; omega, hd⟩

variable {pos : Iterator}

theorem writeTarget_spec (hb : b.WF h) (hr : b.InRange pos) :
    (totalSize b.body ≤ b.offsetOf pos ∧ writeTarget b pos = none) ∨
      ∃ c off, writeTarget b pos = some (c, off) ∧ b.HoldsAt (b.offsetOf pos) c ∧
        sizeBefore b.body c.id + off = b.offsetOf pos := by
  obtain ⟨P, Q, off, hfix, hat⟩ := fix_spec hb hr
  have hbody := hat.body
  have hoffset := hat.offset
  have hQ : ∀ c ∈ Q, c.flags.ctl = true → c.size = 0 :=
    fun c hc => (hb.valid_body c (by simp [hbody, hc])).ctlSize
  unfold writeTarget
  rw [hfix]
  dsimp only
  obtain ⟨hsize, hloop⟩ | ⟨M, c, R, off', rfl, hloop, hsum, hlt⟩ :=
    iteratorMmapLoop_spec hQ (head_le hat.inChunk)
  · left
    rw [hloop, hbody, totalSize_append]
    exact ⟨by omega, rfl⟩
  · right
    have hid : c.id ∉ idsOf (P ++ M) := by
      have hnd := hb.nodup_body
      rw [hbody, ← append_assoc, idsOf_append, nodup_append] at hnd
      exact fun hm => hnd.2.2 _ hm c.id (by simp) rfl
    have hstart : sizeBefore b.body c.id = totalSize P + totalSize M := by
      rw [hbody, ← append_assoc, sizeBefore_middle rfl hid, totalSize_append]
    refine ⟨c, off', by rw [hloop]; rfl, ⟨by simp [hbody], ?_, ?_⟩, ?_⟩ <;> omega

theorem iteratorMmap_one (write : Bool) (hr : b.InRange pos) : (writeTarget b pos = none ∧
      vbufferIteratorMmap b pos (some 1) write = (b, pos, 0, .absolute 0)) ∨
    ∃ c off b' pos', writeTarget b pos = some (c, off) ∧
      vbufferIteratorMmap b pos (some 1) write =
        (b', pos', 1, (vbufferChunkGetData c write).2.add off) := by
  unfold vbufferIteratorMmap writeTarget
  simp only [hr.check, Bool.not_true, Bool.false_or, beq_iff_eq, Option.some.injEq,
    Nat.one_ne_zero, if_false]
  cases hloop : iteratorMmapLoop (_vbufferIteratorFix b pos).1.after
      (_vbufferIteratorFix b pos).2 with
  | none => exact .inl ⟨rfl, rfl⟩
  | some found =>
    obtain ⟨c, off, rest⟩ := found
    obtain ⟨-, hoff⟩ := iteratorMmapLoop_mem hloop
    right
    by_cases hlen : c.size - off > 1
    · simp only [if_pos hlen]
      exact ⟨c, off, _, _, rfl, rfl⟩
    · have hone : c.size - off = 1 := by omega
      simp only [hone, gt_iff_lt, lt_irrefl, if_false]
      exact ⟨c, off, _, _, rfl, rfl⟩

/-- A call at an offset behind the end of a sub returns `-1`, whatever the blocks hold. -/
def GetbyteRefuses (h : Heap) (b : Vbuffer) (data : Sub) (offset : ℕ) : Prop :=
  ∀ m : ℕ → List UInt8, (∀ a, (m a).length = (h.mem a).length) →
    vbufferGetbyte ⟨h.next, m⟩ b data offset = 255

def SetbyteRefuses (h : Heap) (b : Vbuffer) (data : Sub) (offset : ℕ) : Prop :=
  ∀ byte, (vbufferSetbyte h b data offset byte).2.2 = .ret false ∧
    (vbufferSetbyte h b data offset byte).1.mem = h.mem

theorem getbyte_refuses_iff (hb : b.WF h) (hc : b.Covers data lo hi) (offset : ℕ) :
    GetbyteRefuses h b data offset ↔ totalSize b.body ≤ lo + offset := by
  obtain ⟨hbegin, hlo⟩ := hc.begin
  obtain ⟨hto, -⟩ := advance_to offset hb hbegin.copy
  have hoffset := hto.offset
  rw [offsetOf_copy, hlo] at hoffset
  unfold GetbyteRefuses vbufferGetbyte vbufferIteratorGetbyte
  simp only [hbegin.check, hto.inRange.check, Bool.not_true, Bool.false_eq_true, if_false]
  have htarget := writeTarget_spec hb hto.inRange
  obtain ⟨hnone, heq⟩ | ⟨c, off, b', pos', hsome, heq⟩ := iteratorMmap_one false hto.inRange
  · have hend : totalSize b.body ≤ lo + offset := by
      simp only [hnone, reduceCtorEq, false_and, exists_false, or_false, and_true] at htarget
      omega
    simp only [heq]
    exact ⟨fun _ => hend, fun _ _ _ => rfl⟩
  · simp only [hsome, reduceCtorEq, and_false, false_or, Option.some.injEq,
      Prod.mk.injEq] at htarget
    obtain ⟨_, _, ⟨rfl, rfl⟩, hheld, -⟩ := htarget
    have hlt := hheld.lt_total hb
    simp only [heq, vbufferChunkGetData, Bool.false_and, Bool.false_eq_true, if_false, Pointer.add,
      Pointer.isNull, lt_irrefl, decide_false, Bool.or_self]
    constructor
    · intro hrefuses
      have hzero := hrefuses (fun a => (h.mem a).map fun _ => 0) (by simp)
      rw [getD_eq_getElem?_getD, getElem?_map] at hzero
      cases hbyte : (h.mem c.data.addr)[c.offset + off]? with
      | none =>
        rw [hbyte] at hzero
        cases hzero
      | some x =>
        rw [hbyte] at hzero
        cases hzero
    · intro hle
      omega

theorem setbyte_refuses_iff (hb : b.WF h) (hc : b.Covers data lo hi) (offset : ℕ) :
    SetbyteRefuses h b data offset ↔
      ∀ c, b.HoldsAt (lo + offset) c →
        c.flags.writable = false ∧ sizeBefore b.body c.id = lo + offset := by
  obtain ⟨hbegin, hlo⟩ := hc.begin
  obtain ⟨hto, -⟩ := advance_to offset hb hbegin.copy
  have hoffset := hto.offset
  rw [offsetOf_copy, hlo] at hoffset
  unfold SetbyteRefuses vbufferSetbyte vbufferIteratorSetbyte
  simp only [hbegin.check, hto.inRange.check, Bool.not_true, Bool.false_eq_true, if_false]
  have htarget := writeTarget_spec hb hto.inRange
  obtain ⟨hnone, heq⟩ | ⟨c, off, b', pos', hsome, heq⟩ := iteratorMmap_one true hto.inRange
  · have hend : totalSize b.body ≤ lo + offset := by
      simp only [hnone, reduceCtorEq, false_and, exists_false, or_false, and_true] at htarget
      omega
    simp only [heq]
    refine ⟨fun _ c hheld => ?_, fun _ _ => ⟨rfl, rfl⟩⟩
    have hlt := hheld.lt_total hb
    omega
  · simp only [hsome, reduceCtorEq, and_false, false_or, Option.some.injEq,
      Prod.mk.injEq] at htarget
    obtain ⟨_, _, ⟨rfl, rfl⟩, hheld, hstart⟩ := htarget
    have hlt := hheld.lt_total hb
    have hpos : b.offsetOf (vbufferIteratorAdvance b (vbufferIteratorCopy data.begin) offset).1 =
        lo + offset := by omega
    rw [hpos] at hheld hstart
    have hone : (∀ d, b.HoldsAt (lo + offset) d →
        d.flags.writable = false ∧ sizeBefore b.body d.id = lo + offset) ↔
        c.flags.writable = false ∧ off = 0 := by
      constructor
      · intro hall
        obtain ⟨hw, hzero⟩ := hall c hheld
        exact ⟨hw, by omega⟩
      · rintro ⟨hw, rfl⟩ d hd
        rw [hd.unique hb hheld]
        exact ⟨hw, by omega⟩
    rw [hone]
    simp only [heq]
    cases hw : c.flags.writable with
    | true =>
      simp [vbufferChunkGetData, hw, Pointer.add, Pointer.isNull]
    | false =>
      by_cases h0 : off = 0
      · simp [vbufferChunkGetData, hw, Pointer.add, Pointer.isNull, h0]
      · simp [vbufferChunkGetData, hw, Pointer.add, Pointer.isNull, h0]

end Bytes

/-! ## A sub of a sub -/

/-- The sub denotes these bytes: they are what is read from it, whatever the length to read. -/
def Denotes (h : Heap) (b : Vbuffer) (data : Sub) (bytes : List UInt8) : Prop :=
  ∀ size, vbufferSubRead h b data size = bytes.take size

section SubSub

variable {h : Heap} {b : Vbuffer} {data : Sub} {lo hi : ℕ}

theorem denotes_iff {bytes : List UInt8} (hcheck : _vbufferSubCheck b data = true) :
    Denotes h b data bytes ↔ (vbufferMmaps b data).flatMap (pieceBytes h.mem) = bytes := by
  simp only [Denotes, vbufferSubRead, if_pos hcheck]
  constructor
  · intro hread
    have hall := hread (((vbufferMmaps b data).flatMap (pieceBytes h.mem)).length + bytes.length)
    rwa [take_of_length_le (by omega), take_of_length_le (by omega)] at hall
  · rintro rfl size
    rfl

section

variable (hb : b.WF h) (hc : b.Covers data lo hi)

include hb hc

theorem subEnd_spec :
    b.InRange (vbufferSubEnd b data) ∧ b.offsetOf (vbufferSubEnd b data) = hi := by
  cases hc with
  | @sized begin length hbegin =>
    obtain ⟨hto, -⟩ := advance_to length hb hbegin.copy
    exact ⟨hto.inRange, hto.offset⟩
  | between _ hend => exact ⟨hend.copy, rfl⟩

theorem subPosition_spec (offset : Option ℕ) :
    b.InRange (vbufferSubPosition b data offset) ∧
      b.offsetOf (vbufferSubPosition b data offset) =
        min (lo + offset.getD (hi - lo)) (totalSize b.body) := by
  obtain ⟨hle, htotal⟩ := hc.le
  cases offset with
  | none =>
    obtain ⟨hin, hoff⟩ := subEnd_spec hb hc
    refine ⟨hin, hoff.trans ?_⟩
    rw [Option.getD_none]
    omega
  | some k =>
    obtain ⟨hbegin, rfl⟩ := hc.begin
    obtain ⟨hto, -⟩ := advance_to k hb hbegin.copy
    unfold vbufferSubPosition
    dsimp only
    split
    · exact ⟨hto.inRange, hto.offset⟩
    · refine ⟨hbegin.copy, ?_⟩
      rw [offsetOf_copy, Option.getD_some]
      omega

/-- The bytes of a sub that `vbuffer_sub_sub` is asked for: those from the offset on, as many as
the length, and none behind the end of the sub. -/
def subSubBytes (bytes : List UInt8) (offset length : Option ℕ) : List UInt8 :=
  let rest := bytes.drop (offset.getD bytes.length)
  match length with
  | none => rest
  | some length => rest.take length

theorem length_subBytes :
    (((b.content h).drop lo).take (hi - lo)).length = hi - lo := by
  obtain ⟨hle, htotal⟩ := hc.le
  rw [length_take, length_drop, hb.length_content]
  omega

theorem subSub_sized_iff (offset : Option ℕ) (length : ℕ) :
    Denotes h b (vbufferSubSub b data offset (some length))
        (subSubBytes (((b.content h).drop lo).take (hi - lo)) offset (some length)) ↔
      min (length % 2 ^ 32) (totalSize b.body - (lo + offset.getD (hi - lo))) =
        min length (hi - lo - offset.getD (hi - lo)) := by
  obtain ⟨hin, hoff⟩ := subPosition_spec hb hc offset
  obtain ⟨hle, htotal⟩ := hc.le
  have hcov : b.Covers (.sized (vbufferSubPosition b data offset) (length % 2 ^ 32)) _ _ :=
    .sized hin
  rw [show vbufferSubSub b data offset (some length) = .sized _ (length % 2 ^ 32) from rfl]
  rw [denotes_iff hcov.check, mmaps_bytes hb hcov trivial, hoff, subSubBytes, length_subBytes hb hc]
  generalize offset.getD (hi - lo) = o at *
  generalize length % 2 ^ 32 = l
  -- both sides are slices of the content from one place on, so only their lengths matter
  have hlen := hb.length_content
  generalize hcontent : b.content h = content at *
  have hdrop : ((content.drop lo).take (hi - lo)).drop o =
      (content.drop (min (lo + o) (totalSize b.body))).take (hi - lo - o) := by
    rw [drop_take, drop_drop]
    rcases Nat.le_total (lo + o) (totalSize b.body) with hlo | hlo
    · rw [Nat.min_eq_left hlo]
    · rw [Nat.min_eq_right hlo, drop_of_length_le (by omega), drop_of_length_le (by omega)]
  rw [hdrop, take_take]
  constructor
  · intro heq
    have := congrArg List.length heq
    simp only [length_take, length_drop] at this
    omega
  · intro heq
    rw [take_eq_take_iff, length_drop]
    omega

end

variable {Q : List Chunk} {n : ℕ}

theorem advanceLoop_pos (before : List Chunk) {off : ℕ} (ho : ∀ c ∈ Q.head?, off ≤ c.size)
    (h0 : 0 < n) (hn : n ≤ totalSize Q - off) :
    0 < (advanceLoop before Q off n).2.1 := by
  induction Q generalizing before off n with
  | nil =>
    rw [totalSize_nil] at hn
    omega
  | cons c Q ih =>
    have ho : off ≤ c.size := ho c rfl
    rw [totalSize_cons] at hn
    rw [advanceLoop, if_neg (by omega)]
    split
    · exact Nat.add_pos_right _ h0
    · exact ih _ (by simp) (by omega) (by omega)

theorem advance_pos {pos : Iterator} (hb : b.WF h) (hr : b.InRange pos) (h0 : 0 < n)
    (hn : b.offsetOf pos + n ≤ totalSize b.body) :
    0 < (vbufferIteratorAdvance b pos n).1.offset := by
  obtain ⟨P, Q, off, hfix, hat⟩ := fix_spec hb hr
  have hoff := hat.offset
  have hbody := congrArg totalSize hat.body
  rw [totalSize_append] at hbody
  have hnQ : n ≤ totalSize Q - off := by omega
  unfold vbufferIteratorAdvance
  rw [if_pos hr.check, hfix]
  exact advanceLoop_pos P (head_le hat.inChunk) h0 hnQ

theorem advance_ordered {begin «end» : Iterator} (hb : b.WF h) (hbegin : b.InRange begin)
    (hend : b.InRange «end») (h0 : 0 < n) (hn : b.offsetOf begin + n ≤ b.offsetOf «end») :
    b.Ordered (.between (vbufferIteratorAdvance b begin n).1 «end») := by
  have hle := hend.le
  obtain ⟨hto, -⟩ := advance_to n hb hbegin
  have hpos := advance_pos hb hbegin h0 (by omega)
  have hoff := hto.offset
  refine ordered_of_start_lt hb hto.inRange hend ?_
  rw [Vbuffer.offsetOf] at hoff
  omega

theorem subEnd_ordered (hb : b.WF h) (hc : b.Covers data lo hi) (ho : b.Ordered data) :
    b.Ordered (.between (vbufferIteratorCopy data.begin) (vbufferSubEnd b data)) := by
  cases hc with
  | sized hbegin => exact (advance_to _ hb hbegin.copy).1.chunk
  | between => exact ho

theorem subSub_all_ordered (hb : b.WF h) (hc : b.Covers data lo hi) (ho : b.Ordered data)
    {offset : Option ℕ} (hle : offset.getD (hi - lo) ≤ hi - lo) :
    b.Ordered (vbufferSubSub b data offset none) := by
  obtain ⟨hin, hoff⟩ := subEnd_spec hb hc
  cases offset with
  | none =>
    obtain ⟨P, Q, off, hfix, hat⟩ := fix_spec hb hin
    show b.Ordered (.between (vbufferSubEnd b data) (vbufferSubEnd b data))
    rw [Vbuffer.Ordered, hfix]
    exact hat.chunk
  | some k =>
    rw [Option.getD_some] at hle
    show b.Ordered (.between (if k > 0 then _ else _) (vbufferSubEnd b data))
    split
    case isTrue hk =>
      obtain ⟨hbegin, hlo⟩ := hc.begin
      exact advance_ordered hb hbegin.copy hin hk (by rw [offsetOf_copy]; omega)
    case isFalse => exact subEnd_ordered hb hc ho

/-! ### A sub that ends before it begins -/

variable {α : Type*}

theorem subIterateBetween_empty (f : Chunk → List α) {endId endoffset off : ℕ}
    (hend : ∀ c ∈ Q, c.id = endId → endoffset ≤ c.size) (ho : ∀ c ∈ Q.head?, off ≤ c.size)
    (hQ : totalSize Q ≤ off) :
    (subIterateBetween endId endoffset Q off).flatMap (pieceOf f) = [] := by
  induction Q generalizing off with
  | nil => simp [subIterateBetween]
  | cons c Q ih =>
    obtain ⟨hc, hend⟩ := forall_mem_cons.1 hend
    have ho : off ≤ c.size := ho c rfl
    rw [totalSize_cons] at hQ
    have hempty : ∀ x, x ≤ c.size → pieceOf f (c, off, x - off) = [] := by
      intro x hx
      rw [pieceOf, show x - off = 0 by omega, take_zero]
    rw [subIterateBetween]
    split
    case isTrue hid =>
      split
      · rfl
      · rw [flatMap_cons, hempty endoffset (hc hid), flatMap_nil, append_nil]
    case isFalse =>
      rw [flatMap_cons, hempty c.size le_rfl, ih hend (by simp) (by omega), append_nil]

theorem subIterateBetween_missed {f : Chunk → List α} {endId endoffset off : ℕ}
    (hQ : ∀ c ∈ Q, (f c).length = c.size) (hend : endId ∉ idsOf Q)
    (ho : ∀ c ∈ Q.head?, off ≤ c.size) :
    (subIterateBetween endId endoffset Q off).flatMap (pieceOf f) = (Q.flatMap f).drop off := by
  induction Q generalizing off with
  | nil => simp [subIterateBetween]
  | cons c Q ih =>
    obtain ⟨hc, hQ⟩ := forall_mem_cons.1 hQ
    rw [idsOf_cons, mem_cons, not_or] at hend
    have ho : off ≤ c.size := ho c rfl
    rw [subIterateBetween, if_neg (Ne.symm hend.1), flatMap_cons, pieceOf_rest hc,
      ih hQ hend.2 (by simp), drop_zero, flatMap_cons,
      drop_append_of_le_length (by omega)]

def Vbuffer.chunkEnd (b : Vbuffer) (pos : Iterator) : ℕ :=
  totalSize (_vbufferIteratorFix b pos).1.before + (_vbufferIteratorFix b pos).1.chunk.size

/-- A range whose beginning is behind its end: nothing is read if both are in one chunk, else all
bytes behind the beginning. -/
theorem mmaps_reversed {begin «end» : Iterator} (hb : b.WF h) (hbegin : b.InRange begin)
    (hend : b.InRange «end») (h0 : 0 < begin.offset)
    (hlt : b.offsetOf «end» < b.offsetOf begin) :
    (vbufferMmaps b (.between begin «end»)).flatMap (pieceBytes h.mem) =
      if b.offsetOf begin ≤ b.chunkEnd «end» then []
      else (b.content h).drop (b.offsetOf begin) := by
  obtain ⟨P, Q, off, hfix, hat⟩ := fix_spec hb hbegin
  obtain ⟨P', T, endoffset, hfix', hat'⟩ := fix_spec hb hend
  have hoff := hat.offset
  have hoff' := hat'.offset
  have hpos : 0 < off := by
    have := fix_pos b h0
    rwa [hfix] at this
  have hvalid : ∀ c ∈ b.body, (c.bytes h.mem).length = c.size :=
    fun c hc => (hb.valid_body c hc).inBlock
  rw [mmaps_pieces hb, _vbufferSubIterate, hfix, hfix', Vbuffer.chunkEnd, hfix']
  dsimp only
  obtain ⟨M, rfl, rfl⟩ | ⟨c, M, rfl, rfl⟩ := prefix_cases (hat.body.symm.trans hat'.body)
  · -- The end is not before the chunk of the beginning, so it is in that chunk.
    cases M with
    | cons c M =>
      have hle : off ≤ c.size := hat.inChunk
      rw [totalSize_append, totalSize_cons] at hoff'
      omega
    | nil =>
      have hle : off ≤ (Cut.mk P T b.last).chunk.size := hat.inChunk
      rw [append_nil] at hoff' ⊢
      rw [nil_append, if_pos (by omega)]
      cases T with
      | nil => rfl
      | cons c R =>
        rw [subIterateBetween, if_pos (by rfl), if_pos (by omega)]
        rfl
  · -- The end is in the chunk `c`, which the walk from the beginning does not meet.
    have hnd := hb.nodup_body
    rw [hat'.body, cons_append, idsOf_append, nodup_append] at hnd
    have hmiss : c.id ∉ idsOf Q := by
      have := hnd.2.1
      rw [idsOf_cons, nodup_cons, idsOf_append, mem_append, not_or] at this
      exact this.1.2
    have hQ : ∀ d ∈ Q, (d.bytes h.mem).length = d.size :=
      fun d hd => hvalid d (by rw [hat.body]; exact mem_append_right _ hd)
    rw [totalSize_append, totalSize_cons] at hoff
    rw [cons_append, if_neg (by simp only [Cut.chunk, headD_cons]; omega)]
    refine (subIterateBetween_missed hQ hmiss (head_le hat.inChunk)).trans ?_
    have hlen : (bytesOf h.mem (P' ++ c :: M)).length = totalSize (P' ++ c :: M) :=
      length_flatMap_chunks fun d hd => hvalid d (by rw [hat.body]; exact mem_append_left _ hd)
    rw [← hat.offset, ← drop_drop, Vbuffer.content, hat.body, bytesOf_append, drop_left' hlen]
    rfl

theorem subSub_all_iff (hb : b.WF h) (hc : b.Covers data lo hi) (ho : b.Ordered data)
    (offset : Option ℕ) :
    Denotes h b (vbufferSubSub b data offset none)
        (subSubBytes (((b.content h).drop lo).take (hi - lo)) offset none) ↔
      offset.getD (hi - lo) ≤ hi - lo ∨ totalSize b.body ≤ lo + offset.getD (hi - lo) ∨
        lo + offset.getD (hi - lo) ≤ b.chunkEnd (vbufferSubEnd b data) := by
  obtain ⟨hin, hoff⟩ := subPosition_spec hb hc offset
  obtain ⟨hend, hhi⟩ := subEnd_spec hb hc
  obtain ⟨hlohi, htotal⟩ := hc.le
  have hcheck : _vbufferSubCheck b (vbufferSubSub b data offset none) = true := by
    show (_vbufferIteratorCheck b _ && _vbufferIteratorCheck b (vbufferSubEnd b data)) = true
    rw [hin.check, hend.check]
    rfl
  rw [denotes_iff hcheck, subSubBytes, length_subBytes hb hc]
  by_cases hle : offset.getD (hi - lo) ≤ hi - lo
  · have hordered := subSub_all_ordered hb hc ho hle
    have hcov : b.Covers (vbufferSubSub b data offset none)
        (b.offsetOf (vbufferSubPosition b data offset)) (b.offsetOf (vbufferSubEnd b data)) := by
      have hle' : b.offsetOf (vbufferSubPosition b data offset) ≤
          b.offsetOf (vbufferSubEnd b data) := by omega
      refine .between hin hend ?_ hle'
      unfold Vbuffer.reach
      rw [mem_append, mem_cons]
      exact hordered.imp_right .inl
    rw [mmaps_bytes hb hcov hordered, hoff, hhi]
    refine ⟨fun _ => .inl hle, fun _ => ?_⟩
    rw [drop_take, drop_drop, Nat.min_eq_left (by omega), Nat.sub_sub]
  · have hnone : (((b.content h).drop lo).take (hi - lo)).drop (offset.getD (hi - lo)) = [] := by
      rw [drop_of_length_le]
      rw [length_subBytes hb hc]
      omega
    rw [hnone]
    obtain ⟨k, rfl⟩ : ∃ k, offset = some k := by
      cases offset with
      | none => exact absurd le_rfl hle
      | some k => exact ⟨k, rfl⟩
    rw [Option.getD_some] at hle hoff ⊢
    by_cases hpast : totalSize b.body ≤ lo + k
    · refine ⟨fun _ => .inr (.inl hpast), fun _ => ?_⟩
      obtain ⟨P, Q, off, hfix, hat⟩ := fix_spec hb hin
      have hQ : totalSize Q ≤ off := by
        have hbody := congrArg totalSize hat.body
        have hat' := hat.offset
        rw [totalSize_append] at hbody
        omega
      rw [mmaps_pieces hb]
      show (_vbufferSubIterate b (.between (vbufferSubPosition b data (some k)) _)).flatMap _ = []
      rw [_vbufferSubIterate, hfix]
      refine subIterateBetween_empty _ (fun c hcQ => ?_) (head_le hat.inChunk) hQ
      exact fix_end_le hb _ (by rw [hat.body]; exact mem_append_right _ hcQ)
    · obtain ⟨hbegin, hlo⟩ := hc.begin
      have hk : 0 < k := by omega
      have heq : vbufferSubPosition b data (some k) =
          (vbufferIteratorAdvance b (vbufferIteratorCopy data.begin) k).1 := if_pos hk
      have hpos : 0 < (vbufferSubPosition b data (some k)).offset := by
        rw [heq]
        exact advance_pos hb hbegin.copy hk (by rw [offsetOf_copy]; omega)
      have hrev := mmaps_reversed hb hin hend hpos (by omega)
      rw [hoff, Nat.min_eq_left (by omega)] at hrev
      refine (Eq.congr hrev rfl).trans ?_
      by_cases hchunk : lo + k ≤ b.chunkEnd (vbufferSubEnd b data)
      · rw [if_pos hchunk]
        exact ⟨fun _ => .inr (.inr hchunk), fun _ => rfl⟩
      · rw [if_neg hchunk, drop_eq_nil_iff, hb.length_content]
        omega

end SubSub

/-- When `vbuffer_sub_sub` stays in the sub: a length fits behind the offset or the sub ends with
the buffer; for `ALL` the offset is not behind the end of the sub, or in its chunk, or behind the
end of the buffer. -/
def SubSubInside (b : Vbuffer) (data : Sub) (lo hi : ℕ) (offset length : Option ℕ) : Prop :=
  let o := offset.getD (hi - lo)
  match length with
  | some length =>
    min (length % 2 ^ 32) (totalSize b.body - (lo + o)) = min length (hi - lo - o)
  | none =>
    o ≤ hi - lo ∨ totalSize b.body ≤ lo + o ∨ lo + o ≤ b.chunkEnd (vbufferSubEnd b data)

/-- **Subs and the end of their range.** When the size check, a sub of a sub, and a read and a write
of a byte keep to the bytes from `lo` to `hi`. -/
theorem stays_inside_iff {h : Heap} {b : Vbuffer} {data : Sub} {lo hi : ℕ} (hb : b.WF h)
    (hc : b.Covers data lo hi) (ho : b.Ordered data) (minsize size offset length : Option ℕ)
    (i : ℕ) :
    ((vbufferSubCheckSize b data minsize size).1 = reaches minsize (hi - lo) ↔
      CheckSizeExact b data lo minsize) ∧
    (Denotes h b (vbufferSubSub b data offset length)
        (subSubBytes (((b.content h).drop lo).take (hi - lo)) offset length) ↔
      SubSubInside b data lo hi offset length) ∧
    ((hi - lo ≤ i → GetbyteRefuses h b data i) ↔ (hi - lo ≤ i → totalSize b.body ≤ lo + i)) ∧
    ((hi - lo ≤ i → SetbyteRefuses h b data i) ↔
      (hi - lo ≤ i → ∀ c, b.HoldsAt (lo + i) c →
        c.flags.writable = false ∧ sizeBefore b.body c.id = lo + i)) := by
  refine ⟨checkSize_exact_iff hb hc ho minsize size, ?_, ?_, ?_⟩
  · cases length with
    | none => exact subSub_all_iff hb hc ho offset
    | some length => exact subSub_sized_iff hb hc offset length
  · exact imp_congr_right fun _ => getbyte_refuses_iff hb hc i
  · exact imp_congr_right fun _ => setbyte_refuses_iff hb hc i

theorem stays_inside_hello : helloBuffer.WF helloHeap ∧
      helloBuffer.Covers (vbufferSubCreate helloBuffer 1 (some 3)) 1 4 ∧
      (vbufferSubCheckSize helloBuffer (vbufferSubCreate helloBuffer 1 (some 3)) (some 4) none).1 =
        false ∧
      Denotes helloHeap helloBuffer
        (vbufferSubSub helloBuffer (vbufferSubCreate helloBuffer 1 (some 3)) (some 1) none)
        [108, 108] ∧
      (3 ≤ 4 → GetbyteRefuses helloHeap helloBuffer (vbufferSubCreate helloBuffer 1 (some 3)) 4) :=
  have hin := stays_inside_iff helloBuffer_wf (subCreate_covers 1 3 helloBuffer_wf)
    (subCreate_ordered 1 (some 3) helloBuffer_wf) (some 4) none (some 1) none 4
  ⟨helloBuffer_wf, subCreate_covers 1 3 helloBuffer_wf, hin.1.2 trivial,
    hin.2.1.2 (.inl (by decide)), hin.2.2.1.2 fun _ => by decide⟩

/-- The first two bytes of `hello` as a sized sub: it is taken to have three bytes, its sub from 1
on goes to `ell`, and the byte at 3 can be read and written. -/
theorem sized_sub_leaks : helloBuffer.WF helloHeap ∧
      (let data := vbufferSubCreateFromPosition (vbufferPosition helloBuffer 0 (some 0)) 2
       helloBuffer.Covers data 0 2 ∧ helloBuffer.Ordered data ∧
         vbufferSubSize helloBuffer data = some 2 ∧
         (vbufferSubCheckSize helloBuffer data (some 3) none).1 = true ∧
         vbufferSubRead helloHeap helloBuffer (vbufferSubSub helloBuffer data (some 1) (some 3)) 9 =
           [101, 108, 108] ∧
         vbufferGetbyte helloHeap helloBuffer data 3 = 108 ∧
         (vbufferSetbyte helloHeap helloBuffer data 3 88).2.2 = .ret true ∧
         (vbufferSetbyte helloHeap helloBuffer data 3 88).2.1.content
           (vbufferSetbyte helloHeap helloBuffer data 3 88).1 = [104, 101, 108, 88, 111]) :=
  ⟨helloBuffer_wf, .sized (by decide), trivial, by decide, by decide, by decide, by decide,
    by decide, by decide⟩

end Haka
