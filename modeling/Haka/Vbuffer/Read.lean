import Haka.Vbuffer.Refine
import Haka.Vbuffer.Write

/-!
# Positions, sizes and reads as slices

Four loops walk the chunks of a buffer, each with its own convention at a boundary:
`_vbuffer_iterator_fix`, `vbuffer_iterator_advance`, `_vbuffer_iterator_check_available` and
`_vbuffer_sub_iterate`. They agree with one picture: a position is an offset in the content, a range a
slice of it (`reads_refine_iff`). The only limit is the length of a sub, which is stored in 32 bits:
`vbuffer_iterator_sub` of `2 ^ 32` bytes or more makes a shorter sub.
-/

namespace Haka

open List

/-! ## The functions -/

/-- `cursize >= minsize`; no size reaches `(size_t)-1`, here `none`. -/
def reaches (minsize : Option ℕ) (cursize : ℕ) : Bool :=
  match minsize with
  | none => false
  | some minsize => cursize ≥ minsize

/-- The loop of `_vbuffer_iterator_check_available`; `enditer` is the chunk of the end and the
offset in it. The result and what is stored in `*size`, `none` for `(size_t)-1`; an end before the
beginning is an error. -/
def checkAvailableLoop (enditer : Option (ℕ × ℕ)) (minsize size : Option ℕ) :
    List Chunk → ℕ → ℕ → Bool × Option ℕ
  | [], _, cursize => (false, some cursize)
  | iter :: rest, offset, cursize =>
    match enditer.filter fun e => e.1 = iter.id with
    | some (_, endoffset) =>
      if offset > endoffset then (false, size)
      else if reaches minsize (cursize + (endoffset - offset)) then (true, minsize)
      else (false, some (cursize + (endoffset - offset)))
    | none =>
      if reaches minsize (cursize + (iter.size - offset)) then (true, minsize)
      else checkAvailableLoop enditer minsize size rest 0 (cursize + (iter.size - offset))

def _vbufferIteratorCheckAvailable (b : Vbuffer) (position : Iterator) («end» : Option Iterator)
    (minsize size : Option ℕ) : Bool × Option ℕ :=
  if !_vbufferIteratorCheck b position then (false, none)
  else if minsize = some 0 then (true, minsize)
  else
    let (k, offset) := _vbufferIteratorFix b position
    match «end» with
    | none => checkAvailableLoop none minsize size k.after offset 0
    | some «end» =>
      if !_vbufferIteratorCheck b «end» then (false, none)
      else
        let (e, endoffset) := _vbufferIteratorFix b «end»
        checkAvailableLoop (some (e.chunk.id, endoffset)) minsize size k.after offset 0

def vbufferIteratorAvailable (b : Vbuffer) (position : Iterator) : Option ℕ :=
  (_vbufferIteratorCheckAvailable b position none none (some 0)).2

def vbufferSubCheckSize (b : Vbuffer) (data : Sub) (minsize size : Option ℕ) : Bool × Option ℕ :=
  if !_vbufferSubCheck b data then (false, size)
  else
    match data with
    | .sized begin length =>
      _vbufferIteratorCheckAvailable b begin none (some (minsize.getD length)) size
    | .between begin «end» => _vbufferIteratorCheckAvailable b begin (some «end») minsize size

/-- `vbuffer_iterator_sub`: the length and the sub, `none` for `-1`. -/
def vbufferIteratorSub (h : Heap) (b : Vbuffer) (position : Iterator) (len : ℕ) (split : Bool) :
    Heap × Vbuffer × Iterator × Option (ℕ × Sub) :=
  if !_vbufferIteratorCheck b position then (h, b, position, none)
  else
    let begin := vbufferIteratorCopy position
    match vbufferIteratorAdvance b position len with
    | (position, none) => (h, b, position, none)
    | (position, some len) =>
      if split then
        match _vbufferIteratorSplit h b position false with
        | (h, none) => (h, b, vbufferIteratorUpdate position begin.chunk begin.offset, none)
        | (h, some k) =>
          (h, k.toVbuffer, vbufferIteratorUpdate position k.chunk.id 0,
            some (len, vbufferSubCreateFromPosition begin len))
      else (h, b, position, some (len, vbufferSubCreateFromPosition begin len))

/-! ## The size of a range -/

/-- The bytes a length takes from `n`, all of them for `ALL`. -/
def upTo (length : Option ℕ) (n : ℕ) : ℕ :=
  match length with
  | none => n
  | some length => min length n

section Size

variable {h : Heap} {b : Vbuffer} {data : Sub} {lo hi : ℕ} {minsize : Option ℕ}

theorem reaches_mono {m n : ℕ} (hmn : m ≤ n) (hm : reaches minsize m = true) :
    reaches minsize n = true := by
  cases minsize with
  | none => exact hm
  | some k =>
    simp only [reaches, decide_eq_true_eq] at hm ⊢
    omega

theorem upTo_of_reaches {n : ℕ} (hn : reaches minsize n = true) : some (upTo minsize n) = minsize := by
  cases minsize with
  | none => cases hn
  | some k => exact congrArg some (Nat.min_eq_left (of_decide_eq_true hn))

theorem upTo_of_not_reaches {n : ℕ} (hn : reaches minsize n = false) : upTo minsize n = n := by
  cases minsize with
  | none => rfl
  | some k => exact Nat.min_eq_right (Nat.le_of_not_ge (of_decide_eq_false hn))

theorem checkAvailableLoop_upTo {enditer : Option (ℕ × ℕ)} (size : Option ℕ) {M T : List Chunk}
    {off endoffset cursize : ℕ} (hM : ∀ e ∈ enditer, e.1 ∉ idsOf M)
    (hT : (T = [] ∧ endoffset = 0) ∨ ∃ c R, T = c :: R ∧ enditer = some (c.id, endoffset))
    (ho : ∀ c ∈ M.head?, off ≤ c.size) (hoff : M = [] → T ≠ [] → off ≤ endoffset)
    (hcur : reaches minsize cursize = false) :
    checkAvailableLoop enditer minsize size (M ++ T) off cursize =
      (reaches minsize (cursize + (totalSize M + endoffset - off)),
        some (upTo minsize (cursize + (totalSize M + endoffset - off)))) := by
  induction M generalizing off cursize with
  | nil =>
    rcases hT with ⟨rfl, rfl⟩ | ⟨c, R, rfl, rfl⟩
    · simp [checkAvailableLoop, hcur, upTo_of_not_reaches hcur]
    · have hle := hoff rfl (cons_ne_nil _ _)
      rw [nil_append, checkAvailableLoop, Option.filter_some_pos (by simp)]
      dsimp only
      rw [if_neg (by omega), totalSize_nil, Nat.zero_add]
      cases hreach : reaches minsize (cursize + (endoffset - off)) with
      | true => rw [if_pos rfl, upTo_of_reaches hreach]
      | false => rw [if_neg Bool.false_ne_true, upTo_of_not_reaches hreach]
  | cons c M ih =>
    have ho : off ≤ c.size := ho c rfl
    have hfilter : enditer.filter (fun e => e.1 = c.id) = none := by
      cases enditer with
      | none => rfl
      | some e =>
        have hne := hM e rfl
        rw [idsOf_cons, mem_cons, not_or] at hne
        exact Option.filter_some_neg (by simpa using hne.1)
    have hsum : cursize + (c.size - off) + (totalSize M + endoffset - 0) =
        cursize + (totalSize (c :: M) + endoffset - off) := by
      rw [totalSize_cons]
      omega
    rw [cons_append, checkAvailableLoop, hfilter, ← hsum]
    cases hreach : reaches minsize (cursize + (c.size - off)) with
    | true =>
      have hmore := reaches_mono (Nat.le_add_right _ (totalSize M + endoffset - 0)) hreach
      rw [hmore, upTo_of_reaches hmore]
      rfl
    | false =>
      exact ih (fun e he hm => hM e he (by simp [hm])) (by simp) (fun _ _ => Nat.zero_le _) hreach

theorem reaches_zero (h0 : minsize ≠ some 0) : reaches minsize 0 = false := by
  cases minsize with
  | none => rfl
  | some k =>
    have hk : k ≠ 0 := fun h => h0 (by rw [h])
    simp only [reaches, decide_eq_false_iff_not]
    omega

theorem reaches_all (n : ℕ) : (true, some 0) = (reaches (some 0) n, some (upTo (some 0) n)) := by
  simp [reaches, upTo]

theorem checkAvailable_spec {pos : Iterator} (minsize size : Option ℕ) (hb : b.WF h)
    (hr : b.InRange pos) :
    _vbufferIteratorCheckAvailable b pos none minsize size =
      (reaches minsize (totalSize b.body - b.offsetOf pos),
        some (upTo minsize (totalSize b.body - b.offsetOf pos))) := by
  obtain ⟨P, Q, off, hfix, hat⟩ := fix_spec hb hr
  unfold _vbufferIteratorCheckAvailable
  simp only [hr.check, hfix, Bool.not_true, Bool.false_eq_true, if_false]
  by_cases h0 : minsize = some 0
  · rw [if_pos h0, h0, reaches_all]
  · have hloop : checkAvailableLoop none minsize size (Q ++ []) off 0 = _ :=
      checkAvailableLoop_upTo size (by simp) (.inl ⟨rfl, rfl⟩) (head_le hat.inChunk) (by simp)
        (reaches_zero h0)
    have hrest : 0 + (totalSize Q + 0 - off) = totalSize b.body - b.offsetOf pos := by
      rw [← hat.offset, hat.body, totalSize_append]
      omega
    rw [append_nil, hrest] at hloop
    rw [if_neg h0, hloop]

theorem checkAvailable_between {begin «end» : Iterator} (minsize size : Option ℕ) (hb : b.WF h)
    (hbegin : b.InRange begin) (hend : b.InRange «end»)
    (hle : b.offsetOf begin ≤ b.offsetOf «end») (ho : b.Ordered (.between begin «end»)) :
    _vbufferIteratorCheckAvailable b begin (some «end») minsize size =
      (reaches minsize (b.offsetOf «end» - b.offsetOf begin),
        some (upTo minsize (b.offsetOf «end» - b.offsetOf begin))) := by
  obtain ⟨P, M, T, off, endoffset, hat⟩ := between_spec hb hbegin hend hle ho
  unfold _vbufferIteratorCheckAvailable
  simp only [hbegin.check, hend.check, Bool.not_true, Bool.false_eq_true, if_false, hat.atBegin,
    hat.atEnd]
  by_cases h0 : minsize = some 0
  · rw [if_pos h0, h0, reaches_all]
  · have hT : (T = [] ∧ endoffset = 0) ∨ ∃ c R, T = c :: R ∧
        some ((Cut.mk (P ++ M) T b.last).chunk.id, endoffset) = some (c.id, endoffset) := by
      refine hat.endChunk.imp_right ?_
      rintro ⟨c, R, hcR, hid, -⟩
      exact ⟨c, R, hcR, by rw [hid]⟩
    have hrest : 0 + (totalSize M + endoffset - off) = b.offsetOf «end» - b.offsetOf begin := by
      rw [← hat.lo, ← hat.hi]
      omega
    rw [if_neg h0, checkAvailableLoop_upTo size (by simpa using hat.endId) hT hat.head
      (fun hM _ => hat.same hM) (reaches_zero h0), hrest]

theorem checkAvailableLoop_to {Q : List Chunk} (endId endoffset off cursize : ℕ) :
    (checkAvailableLoop (some (endId, endoffset)) none none Q off cursize).2 =
      (availableTo endId endoffset Q off).map (cursize + ·) := by
  induction Q generalizing off cursize with
  | nil => rfl
  | cons c Q ih =>
    rw [checkAvailableLoop, availableTo]
    by_cases hid : c.id = endId
    · rw [Option.filter_some, if_pos (by simp [hid]), if_pos hid]
      dsimp only
      by_cases hlt : off > endoffset
      · rw [if_pos hlt, if_pos hlt]
        rfl
      · rw [if_neg hlt, if_neg hlt]
        rfl
    · rw [Option.filter_some, if_neg (by simpa using fun h => hid h.symm), if_neg hid]
      rw [reaches, if_neg Bool.false_ne_true, ih, Option.map_map]
      congr 1
      funext n
      exact Nat.add_assoc ..

/-- **`vbuffer_sub_size` is `vbuffer_sub_check_size`** without a minimum, and the size it stores. -/
theorem subSize_checkSize (hb : b.WF h) (hbegin : b.InRange data.begin) :
    vbufferSubSize b data = (vbufferSubCheckSize b data none none).2 := by
  unfold vbufferSubSize vbufferSubCheckSize
  by_cases hcheck : _vbufferSubCheck b data = true
  case neg => simp [hcheck]
  cases data with
  | sized begin length =>
    have hbegin : b.InRange begin := hbegin
    obtain ⟨P, Q, off, hfix, hat⟩ := fix_spec hb hbegin
    simp only [hcheck, hfix, Bool.not_true, Bool.false_eq_true, if_true, if_false,
      Option.getD_none, checkAvailable_spec _ _ hb hbegin, upTo]
    rw [← hat.offset, hat.body, totalSize_append]
    congr 2
    omega
  | between begin «end» =>
    obtain ⟨hin, hend⟩ : _vbufferIteratorCheck b begin = true ∧
        _vbufferIteratorCheck b «end» = true := by simpa [_vbufferSubCheck] using hcheck
    unfold _vbufferIteratorCheckAvailable
    simp only [hcheck, hin, hend, Bool.not_true, Bool.false_eq_true, if_true, if_false,
      reduceCtorEq, checkAvailableLoop_to, Nat.zero_add, Option.map_id']

theorem subSize_spec (hb : b.WF h) (hc : b.Covers data lo hi) (ho : b.Ordered data) :
    vbufferSubSize b data = some (hi - lo) := by
  rw [subSize_checkSize hb hc.begin.1]
  unfold vbufferSubCheckSize
  rw [hc.check]
  cases hc with
  | sized hbegin =>
    simp only [Bool.not_true, Bool.false_eq_true, if_false, checkAvailable_spec _ _ hb hbegin,
      Option.getD_none, upTo]
    congr 1
    omega
  | between hbegin hend _ hle =>
    simp only [Bool.not_true, Bool.false_eq_true, if_false,
      checkAvailable_between _ _ hb hbegin hend hle ho, upTo]

theorem ordered_of_start_lt {begin «end» : Iterator} (hb : b.WF h) (hbegin : b.InRange begin)
    (hend : b.InRange «end») (hlt : sizeBefore b.body begin.chunk < b.offsetOf «end») :
    b.Ordered (.between begin «end») := by
  obtain ⟨P, T, off, hfix, hat⟩ := fix_spec hb hend
  rw [Vbuffer.Ordered, hfix]
  by_contra hnot
  obtain ⟨hP, hT⟩ := not_or.1 hnot
  have hbody := hat.body
  have hhi := hat.offset
  cases T with
  | nil =>
    have hmem := mem_ids_of_check hbegin.check
    rw [Vbuffer.all, hbody, append_nil, idsOf_append, mem_append] at hmem
    exact hmem.elim hP fun hlast => hT (mem_singleton.1 hlast)
  | cons c R =>
    -- the beginning is in a chunk behind `c`, where the end falls in
    have hPc : begin.chunk ∉ idsOf (P ++ [c]) := by
      simpa [Cut.chunk] using And.intro hP hT
    have hlo : totalSize P + c.size ≤ sizeBefore b.body begin.chunk := by
      rw [hbody, append_cons, sizeBefore_append_of_notMem hPc, totalSize_append,
        totalSize_cons, totalSize_nil]
      omega
    have hin : off ≤ c.size := hat.inChunk
    omega

theorem ordered_of_offset_lt {begin «end» : Iterator} (hb : b.WF h) (hbegin : b.InRange begin)
    (hend : b.InRange «end») (hlt : b.offsetOf begin < b.offsetOf «end») :
    b.Ordered (.between begin «end») :=
  ordered_of_start_lt hb hbegin hend (lt_of_le_of_lt (Nat.le_add_right _ _) hlt)

theorem ordered_of_lt (hb : b.WF h) (hc : b.Covers data lo hi) (hlt : lo < hi) : b.Ordered data := by
  cases hc with
  | sized => trivial
  | between hbegin hend _ _ => exact ordered_of_offset_lt hb hbegin hend hlt

theorem covers_between {begin «end» : Iterator} (hb : b.WF h) (hbegin : b.InRange begin)
    (hend : b.InRange «end») (hlt : b.offsetOf begin < b.offsetOf «end») :
    b.Covers (.between begin «end») (b.offsetOf begin) (b.offsetOf «end») := by
  refine Vbuffer.Covers.between hbegin hend ?_ hlt.le
  unfold Vbuffer.reach
  rw [mem_append, mem_cons]
  exact (ordered_of_offset_lt hb hbegin hend hlt).imp_right .inl

end Size

/-! ## Reads and positions -/

section Reads

variable {h : Heap} {b : Vbuffer} {data : Sub} {lo hi : ℕ}

theorem subRead_spec (hb : b.WF h) (hc : b.Covers data lo hi) (ho : b.Ordered data) (r : ℕ) :
    vbufferSubRead h b data r = ((b.content h).drop lo).take (min r (hi - lo)) := by
  rw [vbufferSubRead, if_pos hc.check, mmaps_bytes hb hc ho, take_take]

variable {pos : Iterator}

theorem available_spec (hb : b.WF h) (hr : b.InRange pos) :
    vbufferIteratorAvailable b pos = some (totalSize b.body - b.offsetOf pos) := by
  rw [vbufferIteratorAvailable, checkAvailable_spec none (some 0) hb hr]
  rfl

/-- An iterator advanced twice is where it is when it is advanced once by the sum, and has gone as
far. -/
def AdvancesTwice (b : Vbuffer) (pos : Iterator) (x y : ℕ) : Prop :=
  let first := vbufferIteratorAdvance b pos x
  let second := vbufferIteratorAdvance b first.1 y
  let once := vbufferIteratorAdvance b pos (x + y)
  b.offsetOf second.1 = b.offsetOf once.1 ∧ second.1.meter = once.1.meter ∧
    once.2 = first.2.bind fun k => second.2.map (k + ·)

theorem advancesTwice (x y : ℕ) (hb : b.WF h) (hr : b.InRange pos) : AdvancesTwice b pos x y := by
  obtain ⟨hx, hlx⟩ := advance_to x hb hr
  obtain ⟨hxy, hlxy⟩ := advance_to y hb hx.inRange
  obtain ⟨hsum, hlsum⟩ := advance_to (x + y) hb hr
  have hox := hx.offset
  refine ⟨?_, ?_, ?_⟩
  · rw [hxy.offset, hsum.offset, hox]
    omega
  · rw [hxy.meter, hsum.meter, hx.meter, Nat.mod_add_mod, Nat.add_assoc, hox]
    congr 2
    omega
  · rw [hlsum, hlx, Option.bind_some, hlxy, Option.map_some, hox]
    congr 1
    omega

theorem subCreate_ordered (a : ℕ) (l : Option ℕ) (hb : b.WF h) :
    b.Ordered (vbufferSubCreate b a l) := by
  cases l with
  | none => exact subCreate_all_ordered a hb
  | some n => exact (advance_to n hb (position_spec 0 a hb).1.copy).1.chunk

theorem createFromPosition_read {k : ℕ} (hb : b.WF h) (hr : b.InRange pos)
    (hk : k ≤ totalSize b.body - b.offsetOf pos) (r : ℕ) :
    vbufferSubRead h b (vbufferSubCreateFromPosition pos k) r =
      ((b.content h).drop (b.offsetOf pos)).take (min r (k % 2 ^ 32)) := by
  have hcov : b.Covers (vbufferSubCreateFromPosition pos k) (b.offsetOf (vbufferIteratorCopy pos))
      (min (b.offsetOf (vbufferIteratorCopy pos) + k % 2 ^ 32) (totalSize b.body)) := .sized hr.copy
  rw [subRead_spec hb hcov trivial, offsetOf_copy]
  congr 2
  omega

theorem iteratorSub_spec (n : ℕ) (split : Bool) (hb : b.WF h) (hr : b.InRange pos) :
    ∃ h' b' pos' sub, vbufferIteratorSub h b pos n split =
        (h', b', pos', some (min n (totalSize b.body - b.offsetOf pos), sub)) ∧
      ∀ r, vbufferSubRead h' b' sub r = ((b.content h).drop (b.offsetOf pos)).take
        (min r (min n (totalSize b.body - b.offsetOf pos) % 2 ^ 32)) := by
  obtain ⟨hto, hlen⟩ := advance_to n hb hr
  generalize hadv : vbufferIteratorAdvance b pos n = adv at hto hlen
  obtain ⟨moved, len⟩ := adv
  obtain rfl : len = some _ := hlen
  unfold vbufferIteratorSub
  simp only [hr.check, hadv, Bool.not_true, Bool.false_eq_true, if_false]
  cases split with
  | false => exact ⟨_, _, _, _, rfl, createFromPosition_read hb hr.copy (Nat.min_le_right _ _)⟩
  | true =>
    obtain ⟨h', k, hsplit, hat⟩ : ∃ h' k, _vbufferIteratorSplit h b moved false = (h', some k) ∧
        SplitAt h b (b.offsetOf moved) (b.index moved) h' k :=
      split_spec hb hto.inRange nofun
    have hmem := mem_ids_of_check hr.check
    have hoff : k.toVbuffer.offsetOf pos = b.offsetOf pos := hat.offsetOf hb hmem
    have htotal := hat.totalSize_toVbuffer hb
    have hr' : k.toVbuffer.InRange (vbufferIteratorCopy pos) :=
      ⟨check_copy (hat.ids hmem), by rw [offsetOf_copy, hoff, htotal]; exact hr.le⟩
    simp only [hsplit, if_true]
    refine ⟨_, _, _, _, rfl, fun r => ?_⟩
    rw [createFromPosition_read hat.wf hr' (by
      rw [offsetOf_copy, hoff, htotal]; exact Nat.min_le_right _ _), offsetOf_copy, hoff, hat.content]

end Reads

/-! ## The result -/

/-- Reading a buffer from the offset `o` on is slicing its content; `n` bytes are asked for. -/
structure ReadsRefine (h : Heap) (b : Vbuffer) (o n : ℕ) : Prop where
  subSize : ∀ l, vbufferSubSize b (vbufferSubCreate b o l) =
    some (upTo l ((b.content h).length - o))
  subRead : ∀ l, vbufferSubRead h b (vbufferSubCreate b o l) n =
    ((b.content h).drop o).take (min n (upTo l ((b.content h).length - o)))
  available : ∀ meter, vbufferIteratorAvailable b (vbufferPosition b meter (some o)) =
    some ((b.content h).length - o)
  availableEnd : ∀ meter, vbufferIteratorAvailable b (vbufferPosition b meter none) = some 0
  advance : ∀ meter, (vbufferIteratorAdvance b (vbufferPosition b meter (some o)) n).2 =
    some (min n ((b.content h).length - o))
  advanceMeter : ∀ meter, (vbufferIteratorAdvance b (vbufferPosition b meter (some o)) n).1.meter =
    ((vbufferPosition b meter (some o)).meter + min n ((b.content h).length - o)) % 2 ^ 32
  advanceTwice : ∀ meter x y, AdvancesTwice b (vbufferPosition b meter (some o)) x y
  iteratorSub : ∀ meter split, ∃ h' b' pos sub,
    vbufferIteratorSub h b (vbufferPosition b meter (some o)) n split =
      (h', b', pos, some (min n ((b.content h).length - o), sub)) ∧
    ∀ r, vbufferSubRead h' b' sub r =
      ((b.content h).drop o).take (min r (min n ((b.content h).length - o)))

section Result

variable {h : Heap} {b : Vbuffer}

theorem subCreate_range (hb : b.WF h) (o : ℕ) (l : Option ℕ) : ∃ hi,
    b.Covers (vbufferSubCreate b o l) (min o (totalSize b.body)) hi ∧
      hi - min o (totalSize b.body) = upTo l (totalSize b.body - o) := by
  cases l with
  | none => exact ⟨_, subCreate_all_covers o hb, by rw [upTo]; omega⟩
  | some n => exact ⟨_, subCreate_covers o n hb, by rw [upTo]; omega⟩

theorem lt_of_readsRefine (hb : b.WF h) {o n : ℕ} (hr : ReadsRefine h b o n) :
    min n ((b.content h).length - o) < 2 ^ 32 := by
  obtain ⟨hpos, hoff⟩ := position_spec 0 o hb
  obtain ⟨h1, b1, pos1, sub1, heq1, hread1⟩ := hr.iteratorSub 0 false
  obtain ⟨h2, b2, pos2, sub2, heq2, hread2⟩ := iteratorSub_spec n false hb hpos
  obtain ⟨rfl, rfl, -, hsome⟩ : h1 = h2 ∧ b1 = b2 ∧ pos1 = pos2 ∧ _ := by
    simpa using heq1.symm.trans heq2
  obtain ⟨hmin, rfl⟩ := hsome
  have hlen := congrArg length
    ((hread1 (min n ((b.content h).length - o))).symm.trans (hread2 _))
  rw [← hmin, Nat.min_self, length_take, length_take, length_drop, length_drop,
    hoff, ← hb.length_content] at hlen
  by_contra hge
  omega

/-- **Reads refine slicing.** Whatever the fragmentation, sizes, reads, positions and advances are
those of the content as a list; a sub of `vbuffer_iterator_sub` reads the bytes it goes over exactly
if their number fits in 32 bits. -/
theorem reads_refine_iff (hb : b.WF h) (o n : ℕ) :
    ReadsRefine h b o n ↔ min n ((b.content h).length - o) < 2 ^ 32 := by
  refine ⟨lt_of_readsRefine hb, fun hlt => ?_⟩
  have hlen := hb.length_content
  have hposition := fun meter => position_spec meter o hb
  have havail : ∀ meter, totalSize b.body - b.offsetOf (vbufferPosition b meter (some o)) =
      (b.content h).length - o := by
    rintro meter
    rw [(hposition meter).2, hlen]
    omega
  have hdrop : ∀ meter, (b.content h).drop (b.offsetOf (vbufferPosition b meter (some o))) =
      (b.content h).drop o := by
    rintro meter
    rw [(hposition meter).2, ← hlen, drop_min_length]
  refine ⟨?_, ?_, ?_, ?_, ?_, ?_, ?_, ?_⟩
  · rintro l
    obtain ⟨hi, hcov, hsize⟩ := subCreate_range hb o l
    rw [subSize_spec hb hcov (subCreate_ordered o l hb), hsize, hlen]
  · rintro l
    obtain ⟨hi, hcov, hsize⟩ := subCreate_range hb o l
    rw [subRead_spec hb hcov (subCreate_ordered o l hb), hsize, ← hlen, drop_min_length]
  · rintro meter
    rw [available_spec hb (hposition meter).1, havail]
  · rintro meter
    obtain ⟨hpos, hoff, -⟩ := position_end meter hb
    rw [available_spec hb hpos, hoff, Nat.sub_self]
  · rintro meter
    rw [(advance_to n hb (hposition meter).1).2, havail]
  · rintro meter
    rw [(advance_to n hb (hposition meter).1).1.meter, havail]
  · exact fun meter x y => advancesTwice x y hb (hposition meter).1
  · rintro meter split
    obtain ⟨h', b', pos, sub, heq, hread⟩ := iteratorSub_spec n split hb (hposition meter).1
    rw [havail] at heq
    refine ⟨h', b', pos, sub, heq, fun r => ?_⟩
    rw [hread, havail, hdrop, Nat.mod_eq_of_lt hlt]

end Result

/-- Three bytes from the second on of a buffer in two chunks. -/
theorem reads_refine_iff_hello : ReadsRefine helloHeap helloBuffer 1 3 :=
  (reads_refine_iff helloBuffer_wf 1 3).2 (by decide)

/-- A buffer of `2 ^ 32` bytes, the same `2 ^ 31` zeros twice. -/
def hugeHeap : Heap := ⟨4, fun a => if a = 1 then replicate (2 ^ 31) 0 else []⟩

def hugeBuffer : Vbuffer :=
  ⟨[⟨2, ⟨false, false, true, false⟩, .basic 1, 0, 2 ^ 31⟩,
    ⟨3, ⟨false, false, true, false⟩, .basic 1, 0, 2 ^ 31⟩], endChunk 0 true⟩

theorem hugeBuffer_wf : hugeBuffer.WF hugeHeap := by
  have hvalid : ∀ id flags, flags.ctl = false →
      (Chunk.mk id flags (.basic 1) 0 (2 ^ 31)).Valid hugeHeap.mem := by
    rintro id flags hctl
    refine ⟨?_, fun h => absurd h (by simp [hctl])⟩
    rw [Chunk.bytes, length_take, drop_zero,
      show hugeHeap.mem (Data.basic 1).addr = replicate (2 ^ 31) 0 from rfl,
      length_replicate, Nat.min_self]
  refine ⟨by decide, by decide, ?_, rfl⟩
  simp only [hugeBuffer, Vbuffer.all, cons_append, nil_append, forall_mem_cons]
  exact ⟨hvalid _ _ rfl, hvalid _ _ rfl, ⟨rfl, fun _ => rfl⟩, by simp⟩

/-- A sub of `2 ^ 32` bytes made by `vbuffer_iterator_sub` is empty. -/
theorem iteratorSub_huge :
    (vbufferIteratorSub hugeHeap hugeBuffer ⟨2, 0, 0, false⟩ (2 ^ 32) false).2.2.2 =
        some (2 ^ 32, .sized ⟨2, 0, 0, false⟩ 0) ∧
      vbufferSubRead hugeHeap hugeBuffer (.sized ⟨2, 0, 0, false⟩ 0) 1 = [] ∧
      ¬ReadsRefine hugeHeap hugeBuffer 0 (2 ^ 32) := by
  refine ⟨by decide, by decide, fun hr => ?_⟩
  have hlt := lt_of_readsRefine hugeBuffer_wf hr
  rw [hugeBuffer_wf.length_content] at hlt
  revert hlt
  decide

end Haka
