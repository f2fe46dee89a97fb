import Haka.Stream.Blocking
import Haka.Stream.Fifo

/-!
# Requests and the pieces the data comes in

A request of a blocking iterator takes turns: it advances over what is there, and yields when that
was not enough. `Blocking.turns` is the induction over the turns of a request; the three requests
are read off it.
-/

namespace Haka

open List

variable {υ : Type}

/-- The resumes to come bring data to a stream that is not finished yet, and the last one, or the
stream as it is, finishes it. -/
def Delivers : Heap → VbufferStream υ → List (Resume υ) → Prop
  | _, s, [] => s.data.last.flags.eof = true
  | h, s, r :: rs => s.data.last.flags.eof = false ∧ r.Ok h s ∧
    match r.deliver s with
    | none => False
    | some (h', s', _) => Delivers h' s' rs

namespace Blocking

def content (w : Blocking υ) : List UInt8 := w.stream.data.content w.heap

def pos (w : Blocking υ) : ℕ := w.stream.data.offsetOf w.iter

def avail (w : Blocking υ) : ℕ := totalSize w.stream.data.body - w.pos

def unread (w : Blocking υ) (rs : List (Resume υ)) : List UInt8 :=
  w.content.drop w.pos ++ rs.flatMap Resume.bytes

/-- The bytes that are new when the stream is seen finished: those of the last resume, or those that
are there when no resume is to come. -/
def lastPiece (w : Blocking υ) (rs : List (Resume υ)) : List UInt8 :=
  match rs.getLast? with
  | none => w.content.drop w.pos
  | some r => r.bytes

/-- An iterator as the constructor and `_update_iter` make it: registered, inside the stream. -/
structure Ok (w : Blocking υ) : Prop where
  wf : w.stream.data.WF w.heap
  inRange : w.stream.data.InRange w.iter
  registered : w.iter.registered = true

/-- The iterator went `k` bytes further, while some of the resumes took place. -/
structure Goes (w : Blocking υ) (rs : List (Resume υ)) (k : ℕ) (w' : Blocking υ)
    (rs' : List (Resume υ)) : Prop where
  ok : w'.Ok
  pos : w'.pos = w.pos + k
  bytes : w'.content ++ rs'.flatMap Resume.bytes = w.content ++ rs.flatMap Resume.bytes
  keeps : ∀ iter, w.stream.data.InRange iter →
    w'.stream.data.InRange iter ∧ w'.stream.data.offsetOf iter = w.stream.data.offsetOf iter

/-- A registered iterator at the position of the blocking one. -/
structure At (w : Blocking υ) (iter : Iterator) : Prop where
  inRange : w.stream.data.InRange iter
  registered : iter.registered = true
  offset : w.stream.data.offsetOf iter = w.pos

section Turns

variable {w w1 w2 : Blocking υ} {r : Resume υ} {rs rs1 rs2 : List (Resume υ)} {m k l : ℕ}

theorem Goes.trans (h1 : Goes w rs k w1 rs1) (h2 : Goes w1 rs1 l w2 rs2) :
    Goes w rs (k + l) w2 rs2 := by
  refine ⟨h2.ok, ?_, h2.bytes.trans h1.bytes, fun iter hin => ?_⟩
  · rw [h2.pos, h1.pos, Nat.add_assoc]
  · obtain ⟨hin1, hofs1⟩ := h1.keeps iter hin
    obtain ⟨hin2, hofs2⟩ := h2.keeps iter hin1
    exact ⟨hin2, hofs2.trans hofs1⟩

theorem Ok.pos_le (hw : w.Ok) : w.pos + w.avail = totalSize w.stream.data.body :=
  Nat.add_sub_of_le hw.inRange.le

theorem Ok.length_content (hw : w.Ok) : w.content.length = w.pos + w.avail := by
  rw [hw.pos_le]
  exact hw.wf.length_content

theorem Ok.length_unread (hw : w.Ok) (rs : List (Resume υ)) :
    (w.unread rs).length = w.avail + (rs.flatMap Resume.bytes).length := by
  rw [unread, length_append, length_drop, hw.length_content, Nat.add_sub_cancel_left]

theorem Ok.copy_eq (hw : w.Ok) : w.copy = w.iter := register_copy hw.inRange hw.registered

theorem Ok.at_iter (hw : w.Ok) : w.At w.iter := ⟨hw.inRange, hw.registered, rfl⟩

theorem iterAdvance_spec (hw : w.Ok) (hm : 0 < m) (rs : List (Resume υ)) :
    ∃ w', w.iterAdvance m = (w', ((min m w.avail : ℕ) : ℤ)) ∧ Goes w rs (min m w.avail) w' rs ∧
      w'.heap = w.heap ∧ w'.stream = w.stream ∧
      w'.iseof = (decide (w.avail < m) && w.stream.data.last.flags.eof) := by
  obtain ⟨hto, hlen⟩ := advance_to m hw.wf hw.inRange
  have hsize : sizeOfInt (m : ℤ) = m := by simp [sizeOfInt]
  refine ⟨{ w with iter := (vbufferIteratorAdvance w.stream.data w.iter m).1 }, ?_,
    ⟨⟨hw.wf, hto.inRange, hto.registered.trans hw.registered⟩, ?_, rfl, fun _ hin => ⟨hin, rfl⟩⟩,
    rfl, rfl, iseof_advance hw.wf hw.inRange hm⟩
  · unfold iterAdvance
    rw [hsize]
    exact congrArg (Prod.mk _) (by rw [hlen]; rfl)
  · have hle := hw.pos_le
    refine hto.offset.trans ?_
    show min (w.pos + m) _ = _
    omega

theorem yield_spec (hw : w.Ok) (hend : w.avail = 0) (heof : w.stream.data.last.flags.eof = false)
    (hr : r.Ok w.heap w.stream) (rs : List (Resume υ)) :
    ∃ iter w', w.yield r = some (iter, w') ∧
      r.deliver w.stream = some (w'.heap, w'.stream, iter) ∧ Goes w (r :: rs) 0 w' rs ∧
      w'.At iter ∧ w'.avail = r.bytes.length := by
  obtain ⟨h', s', iter, hdel, hd⟩ := deliver_spec hw.wf heof hr
  have hreg := register_copy hd.inRange hd.registered
  have hpos : w.pos = totalSize w.stream.data.body := by
    have := hw.pos_le
    omega
  obtain ⟨Z, hgrows⟩ := hd.grows
  let w' : Blocking υ := ⟨h', s', { iter with meter := w.iter.meter }⟩
  have hofs : w'.pos = w.pos := hd.offset.trans hpos.symm
  have hok : w'.Ok := ⟨hd.wf, ⟨hd.inRange.check, hd.inRange.le⟩, hd.registered⟩
  refine ⟨iter, w', ?_, hdel, ⟨hok, hofs, ?_, fun _ => hgrows.inRange⟩,
    ⟨hd.inRange, hd.registered, rfl⟩, ?_⟩
  · unfold yield updateIter
    rw [hdel]
    simp only [Option.map_some, hreg]
    rfl
  · rw [flatMap_cons, ← append_assoc]
    exact congrArg (· ++ _) hd.content
  · have hlen := hok.length_content
    have hcontent : w'.content = w.content ++ r.bytes := hd.content
    rw [hcontent, length_append, hw.length_content, hend, hofs] at hlen
    omega

/-- A turn that waits for the resume `r`. -/
structure Waits (m : ℕ) (w : Blocking υ) (r : Resume υ) (rs : List (Resume υ))
    (w₁ : Blocking υ) (iter : Iterator) (w₂ : Blocking υ) : Prop where
  advance : w.iterAdvance m = (w₁, (w.avail : ℤ))
  iseof : w₁.iseof = false
  yield : w₁.yield r = some (iter, w₂)
  goes₁ : Goes w (r :: rs) w.avail w₁ (r :: rs)
  goes₂ : Goes w₁ (r :: rs) 0 w₂ rs
  at_iter : w₂.At iter
  avail : w₂.avail = r.bytes.length

/-- **Turns of a request.** The last turn either finds enough, or the end of the stream. -/
theorem turns {motive : ℕ → Blocking υ → List (Resume υ) → Prop}
    (enough : ∀ (m : ℕ) w rs w', w.Ok → m ≤ w.avail → w.iterAdvance m = (w', (m : ℤ)) →
      w'.iseof = false → Goes w rs m w' rs → motive m w rs)
    (ended : ∀ (m : ℕ) w w', w.Ok → w.avail < m → w.iterAdvance m = (w', (w.avail : ℤ)) →
      w'.iseof = true → Goes w [] w.avail w' [] → motive m w [])
    (waits : ∀ (m : ℕ) w r rs w1 iter w2, w.Ok → w.avail < m → Waits m w r rs w1 iter w2 →
      motive (m - w.avail) w2 rs → motive m w (r :: rs))
    (hm : 0 < m) (hw : w.Ok) (hd : Delivers w.heap w.stream rs) : motive m w rs := by
  induction rs generalizing m w with
  | nil =>
    obtain ⟨w', hadv, hgo, -, -, heof⟩ := iterAdvance_spec hw hm []
    have hfin : w.stream.data.last.flags.eof = true := hd
    by_cases hle : m ≤ w.avail
    · rw [Nat.min_eq_left hle] at hadv hgo
      exact enough m w [] w' hw hle hadv
        (by rw [heof, decide_eq_false (not_lt.2 hle), Bool.false_and]) hgo
    · rw [Nat.min_eq_right (not_le.1 hle).le] at hadv hgo
      exact ended m w w' hw (not_le.1 hle) hadv
        (by rw [heof, decide_eq_true (not_le.1 hle), hfin, Bool.true_and]) hgo
  | cons r rs ih =>
    obtain ⟨hnot, hr, hrest⟩ := hd
    obtain ⟨w1, hadv, hgo, hheap, hstream, heof⟩ := iterAdvance_spec hw hm (r :: rs)
    rw [hnot, Bool.and_false] at heof
    by_cases hle : m ≤ w.avail
    · rw [Nat.min_eq_left hle] at hadv hgo
      exact enough m w (r :: rs) w1 hw hle hadv heof hgo
    · rw [Nat.min_eq_right (not_le.1 hle).le] at hadv hgo
      have hend : w1.avail = 0 := by
        have h1 := hgo.ok.pos_le
        have h2 := hw.pos_le
        rw [hstream, hgo.pos] at h1
        omega
      obtain ⟨iter, w2, hyield, hdel, hgo2, hat, hav⟩ :=
        yield_spec hgo.ok hend (by rw [hstream]; exact hnot) (by rw [hheap, hstream]; exact hr) rs
      rw [hstream] at hdel
      refine waits m w r rs w1 iter w2 hw (not_le.1 hle) ⟨hadv, heof, hyield, hgo, hgo2, hat, hav⟩ ?_
      rw [hdel] at hrest
      exact ih (by omega) hgo2.ok hrest

/-! ## The bytes a request gets -/

def lastSize (w : Blocking υ) (rs : List (Resume υ)) : ℕ := (w.lastPiece rs).length

/-- What is left of a request at the end of its loop: nothing, or what is missing together with the
last piece, which is not counted. -/
def left (m : ℕ) (w : Blocking υ) (rs : List (Resume υ)) : ℕ :=
  if m ≤ (w.unread rs).length then 0 else m - ((w.unread rs).length - w.lastSize rs)

variable {iter : Iterator}

theorem Waits.length_unread (hw : w.Ok) (ht : Waits m w r rs w1 iter w2) :
    (w.unread (r :: rs)).length = w.avail + (w2.unread rs).length := by
  rw [hw.length_unread, ht.goes₂.ok.length_unread, ht.avail, flatMap_cons, length_append]

theorem Waits.lastSize (ht : Waits m w r rs w1 iter w2) :
    w.lastSize (r :: rs) = w2.lastSize rs := by
  unfold Blocking.lastSize lastPiece
  cases rs with
  | nil =>
    have hlen := ht.goes₂.ok.length_content
    simp only [getLast?_singleton, getLast?_nil, length_drop]
    rw [hlen, Nat.add_sub_cancel_left, ht.avail]
  | cons r' rs => rw [getLast?_cons_cons, getLast?_cons]

theorem lastSize_le (w : Blocking υ) (rs : List (Resume υ)) :
    w.lastSize rs ≤ (w.unread rs).length := by
  unfold Blocking.lastSize lastPiece unread
  cases hlast : rs.getLast? with
  | none => simp
  | some r =>
    obtain ⟨ys, rfl⟩ := getLast?_eq_some_iff.1 hlast
    simp only [length_append, flatMap_append, flatMap_cons, flatMap_nil, append_nil]
    omega

theorem Waits.left (hw : w.Ok) (hlt : w.avail < m)
    (ht : Waits m w r rs w1 iter w2) : left m w (r :: rs) = left (m - w.avail) w2 rs := by
  have hle := w2.lastSize_le rs
  unfold Blocking.left
  rw [ht.length_unread hw, ht.lastSize]
  split_ifs <;> omega

variable {w' : Blocking υ} {p : ℕ}

theorem Waits.goes {rs' : List (Resume υ)} (hw : w.Ok) (hlt : w.avail < m)
    (ht : Waits m w r rs w1 iter w2)
    (hgo : Goes w2 rs (min (m - w.avail) (w2.unread rs).length) w' rs') :
    Goes w (r :: rs) (min m (w.unread (r :: rs)).length) w' rs' := by
  have hall := ht.goes₁.trans (ht.goes₂.trans hgo)
  have hlen : w.avail + (0 + min (m - w.avail) (w2.unread rs).length) =
      min m (w.unread (r :: rs)).length := by
    rw [ht.length_unread hw]
    omega
  rw [hlen] at hall
  exact hall

theorem goes_enough (hw : w.Ok) (hle : m ≤ w.avail) (hgo : Goes w rs m w' rs) :
    Goes w rs (min m (w.unread rs).length) w' rs ∧ left m w rs = 0 := by
  have hlen := hw.length_unread rs
  rw [Nat.min_eq_left (by omega)]
  exact ⟨hgo, if_pos (by omega)⟩

theorem goes_ended (hw : w.Ok) (hlt : w.avail < m) (hgo : Goes w [] w.avail w' []) :
    Goes w [] (min m (w.unread []).length) w' [] ∧ left m w [] = m := by
  have hlen : (w.unread []).length = w.avail := hw.length_unread []
  have hlast : w.lastSize [] = (w.unread []).length := by
    simp [Blocking.lastSize, lastPiece, unread]
  unfold Blocking.left
  rw [hlast, hlen, Nat.min_eq_right hlt.le, if_neg (not_le.2 hlt), Nat.sub_self, Nat.sub_zero]
  exact ⟨hgo, rfl⟩

/-! ## The loops -/

theorem sub_avail (hlt : w.avail < m) :
    (m : ℤ) - w.avail = ((m - w.avail : ℕ) : ℤ) ∧ m - w.avail ≠ 0 :=
  ⟨(Nat.cast_sub hlt.le).symm, Nat.sub_ne_zero_of_lt hlt⟩

theorem advanceLoop_spec (hm : 0 < m) (hw : w.Ok) (hd : Delivers w.heap w.stream rs) :
    ∃ w' rs', advanceLoop m w rs = some ((left m w rs : ℤ), w', rs') ∧
      Goes w rs (min m (w.unread rs).length) w' rs' := by
  refine turns (motive := fun m w rs => ∃ w' rs', advanceLoop m w rs =
    some ((left m w rs : ℤ), w', rs') ∧ Goes w rs (min m (w.unread rs).length) w' rs')
    ?_ ?_ ?_ hm hw hd
  · intro m w rs w' hw hle hadv heof hgo
    obtain ⟨hgo, hleft⟩ := goes_enough hw hle hgo
    refine ⟨w', rs, ?_, hgo⟩
    rw [hleft]
    unfold advanceLoop
    simp [hadv, heof]
  · intro m w w' hw hlt hadv heof hgo
    obtain ⟨hgo, hleft⟩ := goes_ended hw hlt hgo
    refine ⟨w', [], ?_, hgo⟩
    rw [hleft]
    unfold advanceLoop
    simp [hadv, heof]
  · intro m w r rs w1 iter w2 hw hlt ht ih
    obtain ⟨w', rs', hloop, hgo⟩ := ih
    refine ⟨w', rs', ?_, ht.goes hw hlt hgo⟩
    rw [ht.left hw hlt, ← hloop]
    obtain ⟨hsub, hne⟩ := sub_avail hlt
    rw [advanceLoop.eq_def]
    simp [ht.advance, ht.iseof, ht.yield, hsub, hne]

/-- `begin` in the loops of `check_available` and `sub`: set as soon as the iterator moves, to the
position `p` it had before. -/
inductive Begun (p : ℕ) (w : Blocking υ) : Option Iterator → Prop
  | still (hpos : w.pos = p) : Begun p w none
  | moved {iter : Iterator} (hin : w.stream.data.InRange iter) (hreg : iter.registered = true)
    (hofs : w.stream.data.offsetOf iter = p) (hlt : p < w.pos) : Begun p w (some iter)

variable {begin : Option Iterator}

theorem Begun.goes (hb : Begun p w begin) (hgo : Goes w rs 0 w1 rs1) : Begun p w1 begin := by
  have hpos := hgo.pos
  cases hb with
  | still h => exact .still (by omega)
  | moved hin hreg hofs hlt =>
    obtain ⟨hin', hofs'⟩ := hgo.keeps _ hin
    exact .moved hin' hreg (hofs'.trans hofs) (by omega)

theorem Begun.advance (hb : Begun p w begin) (hat : w.At iter) (hgo : Goes w rs k w1 rs1) :
    Begun p w1 (if begin.isNone && (k : ℤ) > 0 then some iter else begin) := by
  have hpos := hgo.pos
  cases hb with
  | still h =>
    rcases Nat.eq_zero_or_pos k with rfl | hk
    · exact .still (by omega)
    · rw [if_pos (by simpa using hk)]
      obtain ⟨hin, hofs⟩ := hgo.keeps _ hat.inRange
      exact .moved hin hat.registered (by rw [hofs, hat.offset, h]) (by omega)
  | moved hin hreg hofs hlt =>
    obtain ⟨hin', hofs'⟩ := hgo.keeps _ hin
    exact .moved hin' hreg (hofs'.trans hofs) (by omega)

section

variable (hm : 0 < m) (hw : w.Ok) (hd : Delivers w.heap w.stream rs)

include hm hw hd

theorem checkAvailableLoop_spec (hb : Begun p w begin) :
    ∃ begin' w' rs', checkAvailableLoop m begin w rs = some ((left m w rs : ℤ), begin', w', rs') ∧
      Goes w rs (min m (w.unread rs).length) w' rs' ∧ Begun p w' begin' := by
  refine turns (motive := fun m w rs => ∀ begin, Begun p w begin → ∃ begin' w' rs',
    checkAvailableLoop m begin w rs = some ((left m w rs : ℤ), begin', w', rs') ∧
      Goes w rs (min m (w.unread rs).length) w' rs' ∧ Begun p w' begin') ?_ ?_ ?_ hm hw hd begin hb
  · intro m w rs w' hw hle hadv heof hgo begin hb
    have hbegun := hb.advance hw.at_iter hgo
    obtain ⟨hgo, hleft⟩ := goes_enough hw hle hgo
    refine ⟨_, w', rs, ?_, hgo, hbegun⟩
    rw [hleft]
    unfold checkAvailableLoop
    simp [hadv, heof, hw.copy_eq]
  · intro m w w' hw hlt hadv heof hgo begin hb
    have hbegun := hb.advance hw.at_iter hgo
    obtain ⟨hgo, hleft⟩ := goes_ended hw hlt hgo
    refine ⟨_, w', [], ?_, hgo, hbegun⟩
    rw [hleft]
    unfold checkAvailableLoop
    simp [hadv, heof, hw.copy_eq]
  · intro m w r rs w1 iter w2 hw hlt ht ih begin hb
    obtain ⟨begin', w', rs', hloop, hgo, hbegun⟩ :=
      ih _ ((hb.advance hw.at_iter ht.goes₁).goes ht.goes₂)
    refine ⟨begin', w', rs', ?_, ht.goes hw hlt hgo, hbegun⟩
    rw [ht.left hw hlt, ← hloop]
    obtain ⟨hsub, hne⟩ := sub_avail hlt
    rw [checkAvailableLoop.eq_def]
    simp [ht.advance, ht.iseof, ht.yield, hsub, hne, hw.copy_eq]

theorem subLoop_spec (hb : Begun p w begin) (hat : w.At iter) :
    ∃ begin' w' rs', subLoop false m begin iter w rs = some (begin', w', rs') ∧
      Goes w rs (min m (w.unread rs).length) w' rs' ∧ Begun p w' begin' := by
  refine turns (motive := fun m w rs => ∀ begin iter, Begun p w begin → w.At iter →
    ∃ begin' w' rs', subLoop false m begin iter w rs = some (begin', w', rs') ∧
      Goes w rs (min m (w.unread rs).length) w' rs' ∧ Begun p w' begin') ?_ ?_ ?_ hm hw hd
      begin iter hb hat
  · intro m w rs w' hw hle hadv heof hgo begin iter hb hat
    refine ⟨_, w', rs, ?_, (goes_enough hw hle hgo).1, hb.advance hat hgo⟩
    unfold subLoop
    simp [hadv, heof]
  · intro m w w' hw hlt hadv heof hgo begin iter hb hat
    refine ⟨_, w', [], ?_, (goes_ended hw hlt hgo).1, hb.advance hat hgo⟩
    unfold subLoop
    simp [hadv, heof]
  · intro m w r rs w1 iter' w2 hw hlt ht ih begin iter hb hat
    obtain ⟨begin', w', rs', hloop, hgo, hbegun⟩ :=
      ih _ iter' ((hb.advance hat ht.goes₁).goes ht.goes₂) ht.at_iter
    refine ⟨begin', w', rs', ?_, ht.goes hw hlt hgo, hbegun⟩
    rw [← hloop]
    obtain ⟨hsub, hne⟩ := sub_avail hlt
    rw [subLoop.eq_def]
    simp [ht.advance, ht.iseof, ht.yield, hsub, hne]

/-! ## The requests -/

theorem advance_spec :
    ∃ w' rs', w.advance (.size m) rs = some ((m : ℤ) - left m w rs, w', rs') ∧
      Goes w rs (min m (w.unread rs).length) w' rs' := by
  obtain ⟨w', rs', hloop, hgo⟩ := advanceLoop_spec hm hw hd
  refine ⟨w', rs', ?_, hgo⟩
  unfold advance
  simp only [hloop, Option.map_some]

end

theorem Begun.moveToBegin (hw : w.Ok) (hb : Begun p w begin) : (w.moveToBegin begin).pos = p := by
  cases hb with
  | still h => exact h
  | @moved iter hin hreg hofs hlt =>
    show w.stream.data.offsetOf (vbufferIteratorMove w.stream.data w.iter iter) = p
    unfold vbufferIteratorMove
    rw [hw.inRange.check, hin.check]
    exact hofs

theorem checkAvailable_pos (hm : 0 < m) (hw : w.Ok) (hd : Delivers w.heap w.stream rs) :
    ∃ w' rs', w.checkAvailable m false rs =
        some ((decide (m ≤ (w.unread rs).length), (m : ℤ) - left m w rs), w', rs') ∧
      w'.pos = w.pos := by
  have hlen := hw.length_unread rs
  have hfirst : _vbufferIteratorCheckAvailable w.stream.data w.iter none (some m) none =
      (decide (m ≤ w.avail), some (min m w.avail)) :=
    Haka.checkAvailable_spec (some m) none hw.wf hw.inRange
  unfold checkAvailable
  rw [hfirst]
  by_cases hle : m ≤ w.avail
  · have hall : m ≤ (w.unread rs).length := by omega
    simp [hle, hall, left]
  · obtain ⟨begin', w', rs', hloop, hgo, hbegun⟩ :=
      checkAvailableLoop_spec hm hw hd (.still rfl)
    refine ⟨_, rs', ?_, hbegun.moveToBegin hgo.ok⟩
    simp only [hle, decide_false, Bool.or_self, Bool.false_eq_true, if_false, hloop]
    by_cases hall : m ≤ (w.unread rs).length
    · simp [left, hall]
    · have hpos : ¬((left m w rs : ℕ) : ℤ) ≤ 0 := by
        unfold left
        rw [if_neg hall]
        omega
      rw [if_neg hpos]
      simp [hall]

/-- The bytes of what `sub` returns; `nil` has none. -/
def bytesOfSub (w : Blocking υ) : Option Sub → ℕ → List UInt8
  | none, _ => []
  | some sub, size => vbufferSubRead w.heap w.stream.data sub size

theorem sub_bytes (hm : 0 < m) (hw : w.Ok) (hd : Delivers w.heap w.stream rs) :
    ∃ sub w' rs', w.sub (.size m) false rs = some (sub, w', rs') ∧
      ∀ size, w'.bytesOfSub sub size = ((w.unread rs).take m).take size := by
  have hat : w.At w.copy := by
    rw [hw.copy_eq]
    exact hw.at_iter
  obtain ⟨begin', w', rs', hloop, hgo, hbegun⟩ := subLoop_spec hm hw hd (.still rfl) hat
  obtain ⟨n, rfl⟩ := Nat.exists_eq_succ_of_ne_zero hm.ne'
  have hsub : w.sub (.size (n + 1)) false rs =
      some ((subDone false begin' w').1, (subDone false begin' w').2, rs') := by
    unfold sub
    simp only [hloop, Option.map_some]
  refine ⟨_, _, _, hsub, fun size => ?_⟩
  have hpos := hgo.pos
  -- what is read is in the data, and what is unread begins with it
  have hbytes : (w'.content.drop w.pos).take (min (n + 1) (w.unread rs).length) =
      (w.unread rs).take (n + 1) := by
    have hle : min (n + 1) (w.unread rs).length ≤ (w'.content.drop w.pos).length := by
      rw [length_drop, hgo.ok.length_content, hpos]
      omega
    have hdrop : w.unread rs = (w'.content ++ rs'.flatMap Resume.bytes).drop w.pos := by
      rw [hgo.bytes, drop_append_of_le_length (by rw [hw.length_content]; omega)]
      rfl
    have hin : w.pos ≤ w'.content.length := by
      rw [hgo.ok.length_content, hpos]
      omega
    rw [← take_append_of_le_length hle, ← drop_append_of_le_length hin, ← hdrop, take_min_length]
  rw [← hbytes]
  cases hbegun with
  | still h =>
    have hzero : min (n + 1) (w.unread rs).length = 0 := by omega
    rw [hzero, take_zero, take_nil]
    rfl
  | @moved iter hin hreg hofs hlt =>
    have hcov := covers_between hgo.ok.wf hin hgo.ok.inRange (by rw [hofs]; exact hlt)
    have hord := ordered_of_offset_lt hgo.ok.wf hin hgo.ok.inRange (by rw [hofs]; exact hlt)
    have hdone : (subDone false (some iter) w').1 = some (.between iter w'.iter) := by
      have h1 := register_copy hin hreg
      have h2 := register_copy hgo.ok.inRange hgo.ok.registered
      simp only [subDone, vbufferSubCreateBetweenPosition, vbufferSubRegister, Bool.false_eq_true,
        if_false, h1, h2]
    have hread := subRead_spec hgo.ok.wf hcov hord size
    rw [hofs, show w'.stream.data.offsetOf w'.iter = w'.pos from rfl, hpos,
      Nat.add_sub_cancel_left] at hread
    rw [hdone, take_take]
    exact hread

/-- The answers that do not depend on the pieces: `advance` and `check_available` count the bytes of
the whole stream, `sub` shows them; `check_available` does not move. -/
structure Answers (w : Blocking υ) (rs : List (Resume υ)) (n : ℕ) : Prop where
  advance : ∃ w' rs', w.advance (.size n) rs =
      some (((min n (w.unread rs).length : ℕ) : ℤ), w', rs') ∧
    w'.pos = w.pos + min n (w.unread rs).length
  check : ∃ w' rs', w.checkAvailable n false rs = some ((decide (n ≤ (w.unread rs).length),
      ((min n (w.unread rs).length : ℕ) : ℤ)), w', rs') ∧ w'.pos = w.pos
  sub : ∃ sub w' rs', w.sub (.size n) false rs = some (sub, w', rs') ∧
    ∀ size, w'.bytesOfSub sub size = ((w.unread rs).take n).take size

theorem sub_left_eq_iff (m : ℕ) (w : Blocking υ) (rs : List (Resume υ)) :
    (m : ℤ) - left m w rs = ((min m (w.unread rs).length : ℕ) : ℤ) ↔
      m ≤ (w.unread rs).length ∨ w.lastSize rs = 0 := by
  have hle := w.lastSize_le rs
  unfold left
  split_ifs with h <;> omega

/-- **Requests and pieces.** The answers to a request for `n` bytes, an `int` of the bindings, are
those for the whole stream exactly when there are enough bytes, or the end of the stream comes
alone. -/
theorem blocking_right_iff {n : ℕ} (hw : w.Ok) (hd : Delivers w.heap w.stream rs) (hn : 1 ≤ n)
    (_ : n < 2 ^ 31) :
    w.Answers rs n ↔ n ≤ (w.unread rs).length ∨ w.lastPiece rs = [] := by
  have hiff := sub_left_eq_iff n w rs
  rw [Blocking.lastSize, length_eq_zero_iff] at hiff
  rw [← hiff]
  obtain ⟨w1, rs1, hadv, hgo⟩ := advance_spec hn hw hd
  constructor
  · intro hans
    obtain ⟨w', rs', heq, -⟩ := hans.advance
    rw [hadv] at heq
    exact congrArg Prod.fst (Option.some.inj heq)
  · intro hval
    obtain ⟨w2, rs2, hcheck, hpos⟩ := checkAvailable_pos hn hw hd
    rw [hval] at hadv hcheck
    exact ⟨⟨w1, rs1, hadv, hgo.pos⟩, ⟨w2, rs2, hcheck, hpos⟩, sub_bytes hn hw hd⟩

end Turns

end Blocking

/-- A blocking iterator on a stream to which "ab" was pushed. -/
def abBlocking : Blocking Unit :=
  let r := vbufferStreamPush (twoBlocks 20) (vbufferStreamInit (twoBlocks 10)).2 (blockBuffer 3 1 2)
    none
  ⟨r.1, r.2.1, ⟨3, 0, 0, true⟩⟩

theorem abBlocking_ok : abBlocking.Ok := by
  refine ⟨by decide +kernel, by decide +kernel, rfl⟩

/-- "c" comes, and then the end of the stream. -/
def endAlone : List (Resume Unit) :=
  [⟨twoBlocks 30, some (blockBuffer 5 2 1, none), false⟩, ⟨twoBlocks 40, none, true⟩]

/-- "c" comes together with the end of the stream. -/
def endWithData : List (Resume Unit) := [⟨twoBlocks 30, some (blockBuffer 5 2 1, none), true⟩]

theorem endAlone_delivers : Delivers abBlocking.heap abBlocking.stream endAlone := by
  refine ⟨rfl, ⟨by decide +kernel, ?_⟩, show Delivers _ _ [_] from
    ⟨rfl, ⟨by decide +kernel, ?_⟩, show Delivers _ _ [] from rfl⟩⟩
  · rintro p ⟨⟩
    decide +kernel
  · rintro p ⟨⟩

theorem endWithData_delivers : Delivers abBlocking.heap abBlocking.stream endWithData := by
  refine ⟨rfl, ⟨by decide +kernel, ?_⟩, show Delivers _ _ [] from rfl⟩
  rintro p ⟨⟩
  decide +kernel

/-- A request for ten bytes gets the three of the stream when its end comes alone. -/
theorem blocking_right_ab : abBlocking.Answers endAlone 10 :=
  (Blocking.blocking_right_iff abBlocking_ok endAlone_delivers (by decide) (by decide)).2 (.inr rfl)

/-- When "c" comes together with the end of the stream, a request for ten bytes goes over all three
and answers two, as `check_available` does. -/
theorem blocking_misses_last_piece :
    abBlocking.Ok ∧ Delivers abBlocking.heap abBlocking.stream endWithData ∧
      abBlocking.unread endWithData = [97, 98, 99] ∧
      (abBlocking.advance (.size 10) endWithData).map (fun r => (r.1, r.2.1.pos)) = some (2, 3) ∧
      (abBlocking.checkAvailable 10 false endWithData).map Prod.fst = some (false, 2) ∧
      abBlocking.unread endAlone = [97, 98, 99] ∧
      (abBlocking.advance (.size 10) endAlone).map (fun r => (r.1, r.2.1.pos)) = some (3, 3) :=
  ⟨abBlocking_ok, endWithData_delivers, by decide +kernel, by decide +kernel, by decide +kernel,
    by decide +kernel, by decide +kernel⟩

end Haka
