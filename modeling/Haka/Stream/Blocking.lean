import Haka.Stream.Invariant
import Haka.Vbuffer.Fields

/-!
# Blocking iterators

A `vbuffer_iterator_blocking` walks the data of a stream inside a coroutine: a request that needs
bytes which are not there yet yields, and goes on when the coroutine is resumed with the position of
the new data. The answer should not depend on the pieces in which the data came.

It does in one case. The loops test for the end of the stream before they count the last advance,
so that the bytes that come together with the end are missing from the answer of a request that
runs into it (`blocking_right_iff`).
-/

namespace Haka

open List

variable {υ : Type}

/-! ## The iterator -/

/-- `vbuffer_iterator_iseof`. Only the end chunk carries the `end` flag. -/
def vbufferIteratorIseof (b : Vbuffer) (position : Iterator) : Bool :=
  if !_vbufferIteratorCheck b position then false
  else (_vbufferIteratorFix b position).1.after.isEmpty && b.last.flags.eof

/-- An `int` as the `size_t` it is passed as. -/
def sizeOfInt (size : ℤ) : ℕ := if size < 0 then (2 ^ 64 + size).toNat else size.toNat

/-- A `vbuffer_iterator_blocking`, with the heap and the stream it walks. -/
structure Blocking (υ : Type) where
  heap : Heap
  stream : VbufferStream υ
  iter : Iterator

/-- Before the coroutine of a stream is resumed, in the heap of that moment: a buffer may be pushed,
and the stream may be finished. -/
structure Resume (υ : Type) where
  heap : Heap
  buffer : Option (Vbuffer × Option υ)
  finish : Bool

/-- The stream at a resume, and the iterator of the coroutine: the pushed data, or the end of the
stream. A push into a finished stream is an error. -/
def Resume.deliver (r : Resume υ) (s : VbufferStream υ) :
    Option (Heap × VbufferStream υ × Iterator) :=
  let finish (s : VbufferStream υ) := if r.finish then vbufferStreamFinish s else s
  match r.buffer with
  | none =>
    let s := finish s
    some (r.heap, s, vbufferIteratorRegister s.data (vbufferPosition s.data 0 none))
  | some (buffer, userdata) =>
    match vbufferStreamPush r.heap s buffer userdata with
    | (_, _, _, none) => none
    | (h, s, _, some current) =>
      let s := finish s
      some (h, s, vbufferIteratorRegister s.data current)

namespace Blocking

def copy (w : Blocking υ) : Iterator :=
  vbufferIteratorRegister w.stream.data (vbufferIteratorCopy w.iter)

def iseof (w : Blocking υ) : Bool := vbufferIteratorIseof w.stream.data w.iter

/-- `self._iter:advance(size)`; an iterator that is not valid gives `-1`. -/
def iterAdvance (w : Blocking υ) (size : ℤ) : Blocking υ × ℤ :=
  let r := vbufferIteratorAdvance w.stream.data w.iter (sizeOfInt size)
  ({ w with iter := r.1 }, (r.2.map Int.ofNat).getD (-1))

def moveTo (w : Blocking υ) (iter : Iterator) : Blocking υ :=
  { w with iter := vbufferIteratorMove w.stream.data w.iter iter }

def updateIter (w : Blocking υ) (iter : Iterator) : Blocking υ :=
  let new := vbufferIteratorRegister w.stream.data (vbufferIteratorCopy iter)
  { w with iter := { new with meter := w.iter.meter } }

/-- `local iter = coroutine.yield()` and `self:_update_iter(iter)`: the iterator and the new state. -/
def yield (w : Blocking υ) (r : Resume υ) : Option (Iterator × Blocking υ) :=
  (r.deliver w.stream).map fun (h, s, iter) =>
    (iter, updateIter { w with heap := h, stream := s } iter)

/-! ## The requests

The loops go over the resumes to come. Their result is `none` when the coroutine still waits after
the last one. -/

/-- The loop of `check_available`: `remsize` and `begin` at its end. -/
def checkAvailableLoop (remsize : ℤ) (begin : Option Iterator) (w : Blocking υ)
    (rs : List (Resume υ)) : Option (ℤ × Option Iterator × Blocking υ × List (Resume υ)) :=
  let iter := w.copy
  let (w, adv) := w.iterAdvance remsize
  let begin := if begin.isNone && adv > 0 then some iter else begin
  if w.iseof then some (remsize, begin, w, rs)
  else
    let remsize := remsize - adv
    if remsize ≤ 0 then some (remsize, begin, w, rs)
    else
      match rs with
      | [] => none
      | r :: rs =>
        match w.yield r with
        | none => none
        | some (_, w) => checkAvailableLoop remsize begin w rs

/-- `if begin then self:move_to(begin) end`. -/
def moveToBegin (w : Blocking υ) : Option Iterator → Blocking υ
  | some begin => w.moveTo begin
  | none => w

def checkAvailable (size : ℕ) (nonblocking : Bool) (w : Blocking υ) (rs : List (Resume υ)) :
    Option ((Bool × ℤ) × Blocking υ × List (Resume υ)) :=
  let (ret, avail) :=
    _vbufferIteratorCheckAvailable w.stream.data w.iter none (some size) none
  if ret || nonblocking then some ((ret, (avail.map Int.ofNat).getD (-1)), w, rs)
  else
    match checkAvailableLoop size none w rs with
    | none => none
    | some (remsize, begin, w, rs) =>
      let w := w.moveToBegin begin
      if remsize ≤ 0 then some ((true, size), w, rs)
      else some ((false, size - remsize), w, rs)

/-- `size_or_mode`. -/
inductive Amount where
  | available
  | all
  | size (n : ℕ)

/-- The loop of `advance`: `remsize` at its end. -/
def advanceLoop (remsize : ℤ) (w : Blocking υ) (rs : List (Resume υ)) :
    Option (ℤ × Blocking υ × List (Resume υ)) :=
  let (w, adv) := w.iterAdvance remsize
  if w.iseof then some (remsize, w, rs)
  else
    let remsize := if remsize ≥ 0 then remsize - adv else remsize
    if remsize = 0 then some (remsize, w, rs)
    else
      match rs with
      | [] => none
      | r :: rs =>
        match w.yield r with
        | none => none
        | some (_, w) => advanceLoop remsize w rs

def advance (amount : Amount) (w : Blocking υ) (rs : List (Resume υ)) :
    Option (ℤ × Blocking υ × List (Resume υ)) :=
  match amount with
  | .available =>
    let (w, adv) := w.iterAdvance (-1)
    some (adv, w, rs)
  | .all => (advanceLoop (-1) w rs).map fun (_, w, rs) => (0, w, rs)
  | .size n => (advanceLoop n w rs).map fun (remsize, w, rs) => (n - remsize, w, rs)

/-- The loop of `sub`: `begin` at its end. -/
def subLoop (available : Bool) (remsize : ℤ) (begin : Option Iterator) (iter : Iterator)
    (w : Blocking υ) (rs : List (Resume υ)) :
    Option (Option Iterator × Blocking υ × List (Resume υ)) :=
  let (w, adv) := w.iterAdvance remsize
  let begin := if begin.isNone && adv > 0 then some iter else begin
  if w.iseof then some (begin, w, rs)
  else if available && adv > 0 then some (begin, w, rs)
  else
    let remsize := if !available && remsize ≥ 0 then remsize - adv else remsize
    if !available && remsize = 0 then some (begin, w, rs)
    else
      match rs with
      | [] => none
      | r :: rs =>
        match w.yield r with
        | none => none
        | some (iter, w) => subLoop available remsize begin iter w rs

/-- `self._iter:sub(0, split)`. -/
def iterSub (w : Blocking υ) (split : Bool) : Blocking υ × Option Sub :=
  let (h, data, iter, sub) := vbufferIteratorSub w.heap w.stream.data w.iter 0 split
  (⟨h, { w.stream with data := data }, iter⟩, sub.map fun (_, sub) => vbufferSubRegister data sub)

/-- The end of `sub`: `haka.vbuffer_sub(begin, self._iter)`, or `nil`. -/
def subDone (split : Bool) (begin : Option Iterator) (w : Blocking υ) :
    Option Sub × Blocking υ :=
  match begin with
  | some begin =>
    let w := if split then (w.iterSub true).1 else w
    (some (vbufferSubRegister w.stream.data (vbufferSubCreateBetweenPosition begin w.iter)), w)
  | none => (none, w)

def sub (amount : Amount) (split : Bool) (w : Blocking υ) (rs : List (Resume υ)) :
    Option (Option Sub × Blocking υ × List (Resume υ)) :=
  let done (r : Option Iterator × Blocking υ × List (Resume υ)) :=
    let (sub, w) := subDone split r.1 r.2.1
    (sub, w, r.2.2)
  match amount with
  | .available => (subLoop true (-1) none w.copy w rs).map done
  | .all => (subLoop false (-1) none w.copy w rs).map done
  | .size 0 =>
    let (w, sub) := w.iterSub false
    some (sub, w, rs)
  | .size n => (subLoop false n none w.copy w rs).map done

end Blocking

/-! ## Advancing and the end of the stream -/

section Advance

variable {h : Heap} {b : Vbuffer} {pos : Iterator} {n : ℕ}

theorem advanceLoop_after (before : List Chunk) {Q : List Chunk} {off : ℕ}
    (ho : ∀ c ∈ Q.head?, off ≤ c.size) (hn : 0 < n) :
    (advanceLoop before Q off n).1.2 = [] ↔ totalSize Q - off < n := by
  induction Q generalizing before off n with
  | nil => simpa [advanceLoop] using hn
  | cons c Q ih =>
    have ho : off ≤ c.size := ho c rfl
    rw [advanceLoop, if_neg (not_lt.2 ho), totalSize_cons]
    by_cases hge : c.size - off ≥ n
    · rw [if_pos hge]
      simp only [reduceCtorEq, false_iff]
      omega
    · rw [if_neg hge, ih (before ++ [c]) (by simp) (by omega)]
      omega

theorem advance_after (hb : b.WF h) (hr : b.InRange pos) (hn : 0 < n) :
    (_vbufferIteratorFix b (vbufferIteratorAdvance b pos n).1).1.after = [] ↔
      totalSize b.body - b.offsetOf pos < n := by
  obtain ⟨P, Q, off, hfix, hat⟩ := fix_spec hb hr
  have hend := advanceLoop_after P (head_le hat.inChunk) hn
  obtain ⟨m, Q', off', n', rfl, hloop, hoff', -, -⟩ := advanceLoop_spec P (n := n) hat.inChunk
  have hbody : b.body = (P ++ m) ++ Q' := by rw [hat.body, append_assoc]
  have hfix' : _vbufferIteratorFix b (vbufferIteratorAdvance b pos n).1 =
      (⟨P ++ m, Q', b.last⟩, off') := by
    unfold vbufferIteratorAdvance
    rw [if_pos hr.check, hfix]
    simp only [hloop]
    exact (inRange_of_cut _ hb hbody rfl hoff').2.2
  rw [hloop] at hend
  rw [hfix', hend, ← hat.offset, hat.body, totalSize_append P]
  omega

theorem iseof_advance (hb : b.WF h) (hr : b.InRange pos) (hn : 0 < n) :
    vbufferIteratorIseof b (vbufferIteratorAdvance b pos n).1 =
      (decide (totalSize b.body - b.offsetOf pos < n) && b.last.flags.eof) := by
  have hto := (advance_to n hb hr).1
  unfold vbufferIteratorIseof
  rw [hto.inRange.check]
  simp only [Bool.not_true, Bool.false_eq_true, if_false]
  congr 1
  rw [Bool.eq_iff_iff, List.isEmpty_iff, decide_eq_true_iff, advance_after hb hr hn]

end Advance

/-! ## Resumes -/

/-- The data of a stream with more chunks behind its end chunk, which kept its place. -/
structure Vbuffer.Grows (b b' : Vbuffer) (Z : List Chunk) : Prop where
  body : b'.body = b.body ++ Z
  id : (Cut.mk b.body Z b'.last).chunk.id = b.last.id
  size : (Cut.mk b.body Z b'.last).chunk.size = b.last.size

theorem Vbuffer.Grows.inRange {b b' : Vbuffer} {Z : List Chunk} {pos : Iterator}
    (hg : b.Grows b' Z) (hr : b.InRange pos) :
    b'.InRange pos ∧ b'.offsetOf pos = b.offsetOf pos := by
  have hmem := mem_ids_of_check hr.check
  have hsize : totalSize b.body ≤ totalSize b'.body := by
    rw [hg.body, totalSize_append]
    exact Nat.le_add_right _ _
  have hofs : b'.offsetOf pos = b.offsetOf pos := by
    unfold Vbuffer.offsetOf
    rw [hg.body]
    congr 1
    by_cases hin : pos.chunk ∈ idsOf b.body
    · exact sizeBefore_append_of_mem hin
    · have hlast : pos.chunk = b.last.id := by
        rw [Vbuffer.all, idsOf_append, mem_append] at hmem
        simpa using hmem.resolve_left hin
      rw [sizeBefore_append_of_notMem hin, sizeBefore_absent hin, hlast, ← hg.id]
      cases Z with
      | nil => rfl
      | cons c Z => exact congrArg _ (sizeBefore_cons_self c Z)
  refine ⟨⟨?_, by rw [hofs]; exact hr.le.trans hsize⟩, hofs⟩
  -- the chunk of the position is still there, with its size
  obtain ⟨R, hall⟩ : ∃ R, b'.all = b.body ++ (Cut.mk b.body Z b'.last).chunk :: R := by
    cases Z with
    | nil => exact ⟨[], by simp [Vbuffer.all, hg.body, Cut.chunk]⟩
    | cons c Z => exact ⟨Z ++ [b'.last], by simp [Vbuffer.all, hg.body, Cut.chunk]⟩
  have hcheck := hr.check
  unfold _vbufferIteratorCheck at hcheck ⊢
  rw [Vbuffer.all, find?_append] at hcheck
  rw [hall, find?_append]
  cases hfind : b.body.find? fun c => c.id = pos.chunk with
  | some c => simpa [hfind] using hcheck
  | none =>
    rw [hfind, Option.none_or, find?_singleton] at hcheck
    rw [Option.none_or, find?_cons, hg.id]
    by_cases hid : b.last.id = pos.chunk
    · simp only [hid, decide_true, if_true, hg.size] at hcheck ⊢
      exact hcheck
    · simp [hid] at hcheck

def Resume.bytes (r : Resume υ) : List UInt8 :=
  match r.buffer with
  | none => []
  | some (buffer, _) => buffer.content r.heap

/-- A resume as a program makes it: the heap still holds the data of the stream, and a pushed buffer
is well formed and apart from the stream. -/
def Resume.Ok (h : Heap) (s : VbufferStream υ) (r : Resume υ) : Prop :=
  h.Keeps r.heap s.data.all ∧
    ∀ p ∈ r.buffer, p.1.WF r.heap ∧ s.data.Apart p.1

/-- A resume of a stream that was not finished. -/
structure Delivered (h : Heap) (s : VbufferStream υ) (r : Resume υ) (h' : Heap)
    (s' : VbufferStream υ) (iter : Iterator) : Prop where
  wf : s'.data.WF h'
  eof : s'.data.last.flags.eof = r.finish
  content : s'.data.content h' = s.data.content h ++ r.bytes
  grows : ∃ Z, s.data.Grows s'.data Z
  inRange : s'.data.InRange iter
  registered : iter.registered = true
  offset : s'.data.offsetOf iter = totalSize s.data.body

section Deliver

variable {h : Heap} {s : VbufferStream υ}

theorem finish_data (s : VbufferStream υ) (finish : Bool) :
    (if finish then vbufferStreamFinish s else s).data =
      ⟨s.data.body, s.data.last.setEof (finish || s.data.last.flags.eof)⟩ := by
  cases finish <;> rfl

theorem Vbuffer.WF.setEof {b : Vbuffer} (hb : b.WF h) (eof : Bool) :
    (Vbuffer.mk b.body (b.last.setEof eof)).WF h :=
  hb.of_view (by simp [Vbuffer.all]) hb.lastCtl

theorem register_start {b : Vbuffer} {P Q : List Chunk} (meter : ℕ) (hb : b.WF h)
    (hbody : b.body = P ++ Q) :
    vbufferIteratorRegister b ⟨(Cut.mk P Q b.last).chunk.id, 0, meter, false⟩ =
        ⟨(Cut.mk P Q b.last).chunk.id, 0, meter, true⟩ ∧
      b.InRange ⟨(Cut.mk P Q b.last).chunk.id, 0, meter, true⟩ ∧
      b.offsetOf ⟨(Cut.mk P Q b.last).chunk.id, 0, meter, true⟩ = totalSize P := by
  obtain ⟨hin, -, -⟩ := inRange_of_cut ⟨(Cut.mk P Q b.last).chunk.id, 0, meter, false⟩ hb hbody rfl
    (Nat.zero_le _)
  obtain ⟨hin', hofs, -⟩ := inRange_of_cut ⟨(Cut.mk P Q b.last).chunk.id, 0, meter, true⟩ hb hbody rfl
    (Nat.zero_le _)
  refine ⟨?_, hin', hofs⟩
  rw [vbufferIteratorRegister, if_pos hin.check]

/-- **Resume.** The data grows by the bytes that came, and the coroutine goes on where it stopped. -/
theorem deliver_spec {r : Resume υ} (hb : s.data.WF h) (heof : s.data.last.flags.eof = false)
    (hr : r.Ok h s) :
    ∃ h' s' iter, r.deliver s = some (h', s', iter) ∧ Delivered h s r h' s' iter := by
  obtain ⟨heap, buffer, finish⟩ := r
  obtain ⟨hkeeps, hbuf⟩ := hr
  have hb' : s.data.WF heap := hb.keeps hkeeps
  have hsame : s.data.content heap = s.data.content h :=
    bytesOf_keeps hkeeps fun c hc => by simp [Vbuffer.all, hc]
  cases buffer with
  | none =>
    have hdata := finish_data s finish
    rw [heof, Bool.or_false] at hdata
    set s' := if finish then vbufferStreamFinish s else s with hs'
    have hwf : s'.data.WF heap := by
      rw [hdata]
      exact hb'.setEof finish
    have hbody : s'.data.body = s.data.body ++ [] := by rw [hdata, append_nil]
    obtain ⟨hreg, hin, hofs⟩ := register_start 0 hwf hbody
    refine ⟨heap, s', ⟨(Cut.mk s.data.body [] s'.data.last).chunk.id, 0, 0, true⟩, ?_, hwf, ?_, ?_,
      ⟨[], hbody, ?_, ?_⟩, hin, rfl, hofs⟩
    · rw [← hreg]
      rfl
    · rw [hdata]
      rfl
    · show bytesOf _ s'.data.body = _ ++ []
      rw [hbody, append_nil, append_nil]
      exact hsame
    · rw [hdata]
      rfl
    · rw [hdata]
      rfl
  | some p =>
    obtain ⟨buffer, userdata⟩ := p
    obtain ⟨hd, ha⟩ := hbuf _ rfl
    obtain ⟨n, «end», node, happ⟩ := push_appended heap buffer heof userdata
    have hwf1 := happ.wf hb' hd ha
    have hpush := happ.push
    set h1 : Heap := ⟨n + 1, heap.mem⟩
    set s1 : VbufferStream υ := { s with
      data := ⟨s.data.body ++ «end» :: buffer.body, node⟩
      chunks := s.chunks ++ [⟨heap.next, heap.next + 1, n, userdata⟩] } with hs1
    have hdata := finish_data s1 finish
    have heof1 : s1.data.last.flags.eof = false := by
      obtain ⟨modified, writable, hnode⟩ := happ.node
      rw [hs1, hnode]
    rw [heof1, Bool.or_false] at hdata
    set s' := if finish then vbufferStreamFinish s1 else s1 with hs'
    have hwf : s'.data.WF h1 := by
      rw [hdata]
      exact hwf1.setEof finish
    have hbody : s'.data.body = (s.data.body ++ [«end»]) ++ buffer.body := by
      rw [hdata, append_assoc]
      rfl
    obtain ⟨hreg, hin, hofs⟩ := register_start 0 hwf hbody
    have hend : «end».size = 0 := happ.size.trans hb'.last_size
    have hnodeId : (Cut.mk (s.data.body ++ [«end»]) buffer.body s'.data.last).chunk.id =
        (Cut.mk [] buffer.body node).chunk.id := by
      rw [hdata]
      cases buffer.body <;> rfl
    refine ⟨h1, s', ⟨(Cut.mk (s.data.body ++ [«end»]) buffer.body s'.data.last).chunk.id, 0, 0, true⟩,
      ?_, hwf, ?_, ?_, ⟨«end» :: buffer.body, by rw [hbody]; simp, happ.id, happ.size⟩, hin, rfl, ?_⟩
    · rw [← hreg, hnodeId]
      simp only [Resume.deliver, hpush]
      rfl
    · rw [hdata]
      rfl
    · have hnil : «end».bytes heap.mem = [] := by
        unfold Chunk.bytes
        rw [hend, take_zero]
      show bytesOf h1.mem s'.data.body = _
      rw [hbody, bytesOf_append, bytesOf_append, bytesOf_cons, hnil, bytesOf_nil,
        append_nil, append_nil]
      exact congrArg (· ++ _) hsame
    · rw [hofs, totalSize_append, totalSize_cons, hend, totalSize_nil, Nat.add_zero]

end Deliver

end Haka
