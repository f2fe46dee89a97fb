import Haka.Vbuffer.Select
import Haka.Vbuffer.Write

/-!
# Modification tracking

The edits of a buffer set the `modified` flag of a chunk at the place they change, and
`vbuffer_ismodified` looks for a flagged chunk. An erasure may take the flagged chunks with it, and
a restored selection leaves its end chunk behind. `modification_tracked` says that a sequence of edits
in which neither happens does not change a buffer without leaving a flag.
-/

namespace Haka

open List

/-! ## Sequences of edits -/

/-- A sequence of edits of a buffer. `select` selects a range, edits the selected buffer, restores it
and goes on with the buffer. -/
inductive Edits where
  | done
  | call (call : EditCall) (rest : Edits)
  | select (data : Sub) (inner : Edits) (clone : Bool) (rest : Edits)

namespace Edits

/-- The heap and the buffer after a sequence of edits that all succeed. -/
def run (h : Heap) (b : Vbuffer) : Edits → Option (Heap × Vbuffer)
  | done => some (h, b)
  | call c rest =>
    match c.apply h b with
    | (h, b, .ret true) => run h b rest
    | _ => none
  | select data inner clone rest =>
    match vbufferSelect h b data with
    | (h, src, some (sel, ref)) =>
      match run h sel inner with
      | some (h, sel) =>
        match vbufferRestore h src ref (some sel) clone with
        | (h, b, _, true) => run h b rest
        | _ => none
      | none => none
    | _ => none

end Edits

/-! ## Conditions -/

def Flagged (l : List Chunk) : Prop := ∃ c ∈ l, c.flags.modified = true

instance (l : List Chunk) : Decidable (Flagged l) :=
  inferInstanceAs (Decidable (∃ c ∈ l, c.flags.modified = true))

/-- For the bytes of a list of chunks up to a length: whether they end with a chunk, or go past the
last one, and the chunks behind them. -/
def endOfLength : List Chunk → ℕ → Bool × List Chunk
  | [], _ => (true, [])
  | iter :: rest, length =>
    if length > iter.size then endOfLength rest (length - iter.size)
    else (0 < length && length = iter.size, rest)

/-- The same for a range that begins with a chunk. -/
def Vbuffer.endOf (b : Vbuffer) : Sub → Bool × List Chunk
  | .sized begin length => endOfLength (b.seek begin.chunk).after length
  | .between _ «end» =>
    let (k, off) := _vbufferIteratorFix b «end»
    (!k.after.isEmpty && 0 < off && off = k.chunk.size, k.after.tail)

/-- An extraction leaves a flagged chunk: the range does not begin or does not end with a chunk, or
a chunk before or behind it is flagged. -/
def Vbuffer.KeepsMark (b : Vbuffer) (data : Sub) : Prop :=
  0 < data.begin.offset ∨ (b.endOf data).1 = false ∨
    Flagged ((b.seek data.begin.chunk).before ++ (b.endOf data).2 ++ [b.last])

instance (b : Vbuffer) (data : Sub) : Decidable (b.KeepsMark data) :=
  inferInstanceAs (Decidable (_ ∨ _ ∨ _))

/-- A buffer passed to an edit is another one: it shares no chunk with the edited buffer nor with
those it was selected from. -/
def Vbuffer.Other (d : Vbuffer) (used : List ℕ) (h : Heap) (b : Vbuffer) : Prop :=
  d.WF h ∧ b.Apart d ∧ ∀ i ∈ idsOf d.all, i ∉ used

instance (d : Vbuffer) (used : List ℕ) (h : Heap) (b : Vbuffer) : Decidable (d.Other used h b) :=
  inferInstanceAs (Decidable (_ ∧ _ ∧ _))

/-- The condition on one edit. -/
def EditCall.Guarded (used : List ℕ) (h : Heap) (b : Vbuffer) : EditCall → Prop
  | insert _ buffer => buffer.Other used h b
  | append buffer => buffer.Other used h b
  | replace _ buffer => buffer.Other used h b
  | erase data => b.KeepsMark data
  | extract data => b.KeepsMark data
  | _ => True

instance (used : List ℕ) (h : Heap) (b : Vbuffer) (c : EditCall) : Decidable (c.Guarded used h b) :=
  match c with
  | .insert _ buffer => inferInstanceAs (Decidable (buffer.Other used h b))
  | .append buffer => inferInstanceAs (Decidable (buffer.Other used h b))
  | .replace _ buffer => inferInstanceAs (Decidable (buffer.Other used h b))
  | .erase data => inferInstanceAs (Decidable (b.KeepsMark data))
  | .extract data => inferInstanceAs (Decidable (b.KeepsMark data))
  | .subWrite .. => isTrue trivial
  | .iteratorSetbyte .. => isTrue trivial
  | .setbyte .. => isTrue trivial
  | .setnumber .. => isTrue trivial
  | .setbits .. => isTrue trivial

/-- The condition on a restoration: what is put back holds a flagged chunk, if only the selected
buffer is modified. A clone leaves out the control chunks. -/
def RestoreKeepsMark (src sel : Vbuffer) (clone : Bool) : Prop :=
  vbufferIsmodified sel = true →
    Flagged (if clone then sel.body.filter fun c => !c.flags.ctl else sel.body) ∨
      vbufferIsmodified src = true

instance (src sel : Vbuffer) (clone : Bool) : Decidable (RestoreKeepsMark src sel clone) :=
  inferInstanceAs (Decidable (_ → _))

/-- The condition on a sequence of edits; `used` are the chunks of the buffers around `b`. -/
def Edits.Guarded (used : List ℕ) (h : Heap) (b : Vbuffer) : Edits → Prop
  | done => True
  | call c rest =>
    c.Guarded used h b ∧
      match c.apply h b with
      | (h, b, .ret true) => Guarded used h b rest
      | _ => True
  | select data inner clone rest =>
    match vbufferSelect h b data with
    | (h, src, some (sel, ref)) =>
      Guarded (used ++ idsOf src.all) h sel inner ∧
        match inner.run h sel with
        | some (h, sel) =>
          RestoreKeepsMark src sel clone ∧
            match vbufferRestore h src ref (some sel) clone with
            | (h, b, _, true) => Guarded used h b rest
            | _ => True
        | none => True
    | _ => True

/-! ## Flags -/

section Flags

variable {h h' : Heap} {b : Vbuffer} {c : Chunk} {l l' : List Chunk} {k : Cut}

theorem ismodified_iff : vbufferIsmodified b = true ↔ Flagged b.all := by
  simp [vbufferIsmodified, Flagged]

theorem Flagged.mono (hl : Flagged l) (hs : l ⊆ l') : Flagged l' := by
  obtain ⟨c, hc, hm⟩ := hl
  exact ⟨c, hs hc, hm⟩

theorem flagged_append : Flagged (l ++ l') ↔ Flagged l ∨ Flagged l' := by
  simp [Flagged, or_and_right, exists_or]

variable {off : ℕ}

theorem splitChunk_flagged (h : Heap) (hc : c.flags.modified = true) :
    ∀ x ∈ (splitChunk h c off).2.1 ++ (splitChunk h c off).2.2, x.flags.modified = true := by
  unfold splitChunk
  split_ifs <;> simp [Chunk.left, Chunk.right, hc]

theorem splitChunk_left_ne (h : Heap) (c : Chunk) (ho : 0 < off) :
    (splitChunk h c off).2.1 ≠ [] := by
  unfold splitChunk
  rw [if_neg (by omega)]
  split_ifs <;> simp

theorem splitChunk_right_ne (h : Heap) (ho : off = 0 ∨ off ≠ c.size) :
    (splitChunk h c off).2.2 ≠ [] := by
  unfold splitChunk
  split_ifs with hzero hsize
  · simp
  · exact absurd hsize (ho.resolve_left hzero)
  · simp

variable {pos : Iterator}

theorem fix_zero (b : Vbuffer) (hp : pos.offset = 0) :
    _vbufferIteratorFix b pos = (b.seek pos.chunk, 0) := by
  unfold _vbufferIteratorFix
  rw [hp, if_neg (by omega)]

theorem split_flagged (hp : 0 < pos.offset)
    (heq : _vbufferIteratorSplit h b pos true = (h', some k)) : Flagged (k.before ++ [k.last]) := by
  obtain ⟨-, -, rfl, -⟩ | ⟨P, iter, rest, off, hfix, -, -, -, -, rfl⟩ := split_inv heq
  · exact ⟨b.last.markIf true, by simp, rfl⟩
  · have hoff : 0 < off := by
      have := fix_pos b hp
      rwa [hfix] at this
    obtain ⟨x, hx⟩ := exists_mem_of_ne_nil _ (splitChunk_left_ne h (iter.markIf true) hoff)
    exact ⟨x, by simp [hx], splitChunk_flagged h rfl x (mem_append_left _ hx)⟩

theorem split_zero (hp : pos.offset = 0) (heq : _vbufferIteratorSplit h b pos true = (h', some k)) :
    Flagged [k.last] ∨ ∃ iter rest, (b.seek pos.chunk).after = iter :: rest ∧
      k = ⟨(b.seek pos.chunk).before, iter.markIf true :: rest, b.last⟩ := by
  obtain ⟨-, -, rfl, -⟩ | ⟨P, iter, rest, off, hfix, -, -, -, -, rfl⟩ := split_inv heq
  · exact .inl ⟨b.last.markIf true, by simp, rfl⟩
  · rw [fix_zero b hp, Prod.mk.injEq] at hfix
    obtain ⟨hseek, rfl⟩ := hfix
    rw [hseek]
    simp [splitChunk]

theorem endOfLength_mark (c : Chunk) (l : List Chunk) (length : ℕ) :
    endOfLength (c.markIf true :: l) length = endOfLength (c :: l) length := by
  simp [endOfLength]

variable {s : Passed} {T P Q : List Chunk} {size : Option ℕ} {i : ℕ} {e : Chunk}

variable {endId : ℕ} {s' : Passed}

theorem extractLoop_flagged {length : ℕ}
    (hloop : extractLoop h (some length) endId true false s l = (h', s', T, true)) :
    ((endOfLength l length).1 = false → Flagged T) ∧ (endOfLength l length).2 ⊆ T := by
  induction l generalizing s length with
  | nil => simp [endOfLength]
  | cons iter l ih =>
    rw [extractLoop] at hloop
    rw [endOfLength]
    split at hloop
    case isTrue hgt =>
      rw [if_pos hgt]
      exact ih hloop
    case isFalse hle =>
      rw [if_neg hle]
      split at hloop
      · simp at hloop
      · simp only [Prod.mk.injEq] at hloop
        obtain ⟨-, -, rfl, -⟩ := hloop
        refine ⟨fun hends => ?_, subset_append_right _ _⟩
        have hright : length = 0 ∨ length ≠ (iter.markIf true).size := by
          simp only [Bool.and_eq_false_iff, decide_eq_false_iff_not] at hends
          rw [Chunk.markIf_size]
          omega
        obtain ⟨x, hx⟩ := exists_mem_of_ne_nil _ (splitChunk_right_ne h hright)
        exact ⟨x, by simp [hx], splitChunk_flagged h rfl x (mem_append_right _ hx)⟩

variable {begin : Iterator}

/-- What an erasure leaves of the buffer, once its beginning is split: at least the chunks before the
range, those from its end on and the end chunk. -/
theorem extractFrom_inv (hsome : (extractFrom h b begin size endId true false).extracted ≠ none) :
    ∃ h1 k h2 s T h3, _vbufferIteratorSplit h b (vbufferIteratorCopy begin) true = (h1, some k) ∧
      extractLoop h2 size endId true false ⟨[], [], []⟩ k.after = (h3, s, T, true) ∧
      (Flagged k.before ∨ Flagged T ∨ Flagged [k.last] →
        vbufferIsmodified (extractFrom h b begin size endId true false).source = true) := by
  unfold extractFrom at hsome ⊢
  rcases hsplit : _vbufferIteratorSplit h b (vbufferIteratorCopy begin) true with ⟨h1, _ | k⟩
  · simp [hsplit] at hsome
  simp only [hsplit, Bool.not_false, Bool.or_true, if_true] at hsome ⊢
  rcases hloop : extractLoop (_vbufferInit h1 k.chunk.flags.writable).1 size endId true false
    ⟨[], [], []⟩ k.after with ⟨h2, s, T, ok⟩
  cases ok with
  | false => simp [hloop] at hsome
  | true =>
    refine ⟨h1, k, _, s, T, h2, rfl, hloop, fun hflag => ismodified_iff.2 ?_⟩
    simp only [extractDone, Bool.false_eq_true, if_false, Cut.toVbuffer, Vbuffer.all_mk,
      flagged_append]
    tauto

theorem extractFrom_flagged_of_pos
    (hsome : (extractFrom h b begin size endId true false).extracted ≠ none)
    (hpos : 0 < begin.offset) :
    vbufferIsmodified (extractFrom h b begin size endId true false).source = true := by
  obtain ⟨h1, k, h2, s, T, h3, hsplit, -, hflag⟩ := extractFrom_inv hsome
  have hp : 0 < (vbufferIteratorCopy begin).offset := hpos
  rcases flagged_append.1 (split_flagged hp hsplit) with hbefore | hlast
  · exact hflag (.inl hbefore)
  · exact hflag (.inr (.inr hlast))

theorem sized_flagged {length : ℕ}
    (hsome : (extractFrom h b begin (some length) endId true false).extracted ≠ none)
    (hkeep : b.KeepsMark (.sized begin length)) :
    vbufferIsmodified (extractFrom h b begin (some length) endId true false).source = true := by
  rcases Nat.eq_zero_or_pos begin.offset with hzero | hpos
  case inr => exact extractFrom_flagged_of_pos hsome hpos
  obtain ⟨h1, k, h2, s, T, h3, hsplit, hloop, hflag⟩ := extractFrom_inv hsome
  have hz : (vbufferIteratorCopy begin).offset = 0 := hzero
  apply hflag
  rcases split_zero hz hsplit with hlast | ⟨iter, rest, hafter, rfl⟩
  · exact .inr (.inr hlast)
  obtain ⟨hends, hbehind⟩ := extractLoop_flagged hloop
  rw [endOfLength_mark, ← hafter] at hends hbehind
  rcases hkeep with hpos | hend | hflagged
  · exact absurd hpos (by simp only [Sub.begin]; omega)
  · exact .inr (.inl (hends hend))
  · simp only [flagged_append] at hflagged
    rcases hflagged with (hbefore | hrest) | hlast
    · exact .inl hbefore
    · exact .inr (.inl (hrest.mono hbehind))
    · exact .inr (.inr hlast)

theorem mem_dropWhile_id {x : Chunk} (hx : x ∈ l) (hid : x.id = i) :
    x ∈ l.dropWhile fun c => c.id ≠ i := by
  rw [← takeWhile_append_dropWhile (l := l)] at hx
  refine (mem_append.1 hx).resolve_left fun hmem => ?_
  have := mem_takeWhile_imp hmem
  simp [hid] at this

theorem subset_dropWhile_id {M Y : List Chunk} {y : Chunk} :
    y :: Y ⊆ (M ++ y :: Y).dropWhile fun c => c.id ≠ y.id := by
  induction M with
  | nil => simp
  | cons c M ih =>
    by_cases hid : c.id = y.id
    · simp [hid]
    · rw [cons_append, dropWhile_cons_of_pos (by simpa using hid)]
      exact ih

variable {iter : Chunk} {rest : List Chunk}

theorem flagged_at_end {x : Chunk}
    (hafter : (b.seek i).after = iter :: rest) (hx : x ∈ b.body) (hm : x.flags.modified = true)
    (hid : x.id = endId) :
    Flagged (b.seek i).before ∨
      Flagged ((iter.markIf true :: rest).dropWhile fun c => c.id ≠ endId) := by
  have hbody : (b.seek i).before ++ (b.seek i).after = b.body := takeWhile_append_dropWhile
  rw [← hbody, hafter] at hx
  rcases mem_append.1 hx with hx | hx
  · exact .inl ⟨x, hx, hm⟩
  rcases mem_cons.1 hx with rfl | hx
  · exact .inr ⟨x.markIf true, mem_dropWhile_id (by simp) (by simpa using hid), rfl⟩
  · exact .inr ⟨x, mem_dropWhile_id (by simp [hx]) hid, hm⟩

theorem takeWhile_mark (hf : Flagged ((P ++ c :: Q).takeWhile fun c => c.id ≠ i)) :
    Flagged ((P ++ c.markIf true :: Q).takeWhile fun c => c.id ≠ i) := by
  induction P with
  | nil =>
    by_cases hid : c.id = i
    · simp [hid, Flagged] at hf
    · rw [nil_append, takeWhile_cons_of_pos (by simpa using hid)]
      exact ⟨c.markIf true, by simp, rfl⟩
  | cons d P ih =>
    by_cases hid : d.id = i
    · simp [hid, Flagged] at hf
    · rw [cons_append, takeWhile_cons_of_pos (by simpa using hid)] at hf ⊢
      obtain ⟨x, hx, hm⟩ := hf
      rcases mem_cons.1 hx with rfl | hx
      · exact ⟨x, by simp, hm⟩
      · exact (ih ⟨x, hx, hm⟩).mono (by simp)

theorem flagged_behind
    (hafter : ((Vbuffer.mk (P ++ c.markIf true :: Q) e).seek i).after = iter :: rest)
    (hQ : Flagged Q) :
    Flagged ((Vbuffer.mk (P ++ c.markIf true :: Q) e).seek i).before ∨
      Flagged ((iter.markIf true :: rest).dropWhile fun x => x.id ≠ (Q.headD e).id) := by
  have hbody : ((Vbuffer.mk (P ++ c.markIf true :: Q) e).seek i).before ++ iter :: rest =
      P ++ c.markIf true :: Q := by
    rw [← hafter]
    exact takeWhile_append_dropWhile
  by_cases hmem : c.markIf true ∈ ((Vbuffer.mk (P ++ c.markIf true :: Q) e).seek i).before
  · exact .inl ⟨_, hmem, rfl⟩
  right
  -- the beginning is not behind `c`
  obtain ⟨M, hM⟩ : ∃ M, iter :: rest = M ++ c.markIf true :: Q := by
    rcases append_eq_append_iff.1 hbody with ⟨M, -, hM⟩ | ⟨M, hbefore, hM⟩
    · exact ⟨M, hM⟩
    · cases M with
      | nil => exact ⟨[], by simpa using hM.symm⟩
      | cons y M =>
        obtain ⟨rfl, -⟩ := cons.inj hM
        exact absurd (by rw [hbefore]; simp) hmem
  obtain ⟨y, Y, rfl⟩ : ∃ y Y, Q = y :: Y := by
    obtain ⟨x, hx, -⟩ := hQ
    exact exists_cons_of_ne_nil (ne_nil_of_mem hx)
  obtain ⟨M', hM'⟩ : ∃ M', iter.markIf true :: rest = M' ++ y :: Y := by
    cases M with
    | nil =>
      obtain ⟨rfl, rfl⟩ := cons.inj hM
      exact ⟨[_], rfl⟩
    | cons z M =>
      obtain ⟨rfl, rfl⟩ := cons.inj hM
      exact ⟨iter.markIf true :: M ++ [c.markIf true], by simp⟩
  rw [hM']
  exact hQ.mono subset_dropWhile_id

/-- What the split of the end of a range leaves flagged: the end chunk, the chunk at the end of the
range, or the chunk before it when the range ends with that one. -/
theorem split_end_cases (heq : _vbufferIteratorSplit h b pos true = (h', some k)) :
    Flagged [k.last] ∨
    (∃ x ∈ k.toVbuffer.body, x.flags.modified = true ∧ x.id = k.chunk.id) ∨
    ∃ P c Q, _vbufferIteratorFix b pos = (⟨P, c :: Q, b.last⟩, c.size) ∧ 0 < c.size ∧
      b.body = P ++ c :: Q ∧ k = ⟨P ++ [c.markIf true], Q, b.last⟩ := by
  obtain ⟨-, -, rfl, -⟩ | ⟨P, iter, rest, off, hfix, hbody, ho, -, -, rfl⟩ := split_inv heq
  · exact .inl ⟨b.last.markIf true, by simp, rfl⟩
  right
  by_cases hends : 0 < off ∧ off = iter.size
  · obtain ⟨hpos, rfl⟩ := hends
    refine .inr ⟨P, iter, rest, hfix, hpos, hbody, ?_⟩
    have hne : iter.size ≠ 0 := by omega
    simp [splitChunk, hne]
  · left
    have hright : off = 0 ∨ off ≠ (iter.markIf true).size := by
      rw [Chunk.markIf_size]
      omega
    obtain ⟨x, X, hx⟩ := exists_cons_of_ne_nil (splitChunk_right_ne h hright)
    have hmem : x ∈ (splitChunk h (iter.markIf true) off).2.1 ++
        (splitChunk h (iter.markIf true) off).2.2 := by
      simp [hx]
    refine ⟨x, by simp [Cut.toVbuffer, hx], splitChunk_flagged h rfl x hmem, ?_⟩
    simp [Cut.chunk, hx]

theorem between_flagged {«end» : Iterator}
    (hsome : (_vbufferExtract h b (.between begin «end») true false).extracted ≠ none)
    (hkeep : b.KeepsMark (.between begin «end»)) :
    vbufferIsmodified (_vbufferExtract h b (.between begin «end») true false).source = true := by
  unfold _vbufferExtract at hsome ⊢
  split at hsome
  case isFalse => exact absurd rfl hsome
  case isTrue hcheck =>
  rw [if_pos hcheck]
  rcases hend : _vbufferIteratorSplit h b (vbufferIteratorCopy «end») true with ⟨h0, _ | k0⟩
  · simp [hend] at hsome
  simp only [hend] at hsome ⊢
  rcases Nat.eq_zero_or_pos begin.offset with hzero | hpos
  case inr => exact extractFrom_flagged_of_pos hsome hpos
  obtain ⟨h1, k, h2, s, T, h3, hsplit, hloop, hflag⟩ := extractFrom_inv hsome
  have hz : (vbufferIteratorCopy begin).offset = 0 := hzero
  apply hflag
  rcases split_zero hz hsplit with hlast | ⟨iter, rest, hafter, rfl⟩
  · exact .inr (.inr hlast)
  rw [extractLoop_none, Prod.mk.injEq, Prod.mk.injEq, Prod.mk.injEq] at hloop
  obtain ⟨-, -, rfl, -⟩ := hloop
  rcases split_end_cases hend with hlast | ⟨x, hx, hm, hid⟩ | ⟨P, c, Q, hfix, hpos, hbody, rfl⟩
  · exact .inr (.inr hlast)
  · exact (flagged_at_end hafter hx hm hid).imp_right .inl
  -- both flagged chunks are in the range: the flag has to be elsewhere
  have hfix : _vbufferIteratorFix b «end» = (⟨P, c :: Q, b.last⟩, c.size) := hfix
  have htoVbuffer : Cut.toVbuffer ⟨P ++ [c.markIf true], Q, b.last⟩ =
      ⟨P ++ c.markIf true :: Q, b.last⟩ := by
    simp [Cut.toVbuffer]
  rw [htoVbuffer] at hafter ⊢
  rcases hkeep with hpos | hends | hflagged
  · exact absurd hpos (by simp only [Sub.begin]; omega)
  · simp [Vbuffer.endOf, hfix, Cut.chunk, hpos.ne'] at hends
  · simp only [flagged_append, Vbuffer.endOf, hfix, tail_cons] at hflagged
    rcases hflagged with (hbefore | hbehind) | hlast
    · refine .inl (takeWhile_mark ?_)
      rw [← hbody]
      exact hbefore
    · exact (flagged_behind hafter hbehind).imp_right .inl
    · exact .inr (.inr hlast)

variable {data : Sub}

/-- **Flags of an erasure.** An extraction that keeps a mark leaves a flagged chunk. -/
theorem extract_flagged (hkeep : b.KeepsMark data)
    (hsome : (_vbufferExtract h b data true false).extracted ≠ none) :
    vbufferIsmodified (_vbufferExtract h b data true false).source = true := by
  cases data with
  | sized begin length =>
    unfold _vbufferExtract at hsome ⊢
    split at hsome
    case isFalse => exact absurd rfl hsome
    case isTrue hcheck =>
    rw [if_pos hcheck]
    exact sized_flagged hsome hkeep
  | between begin «end» => exact between_flagged hsome hkeep

/-! ### Selection -/

theorem InParts.flagged (h : InParts l l') (hl : Flagged l) : Flagged l' := by
  obtain ⟨d, hd, hm⟩ := hl
  obtain ⟨c, hc, hdc⟩ := h.marks d hd
  exact ⟨c, hc, hdc hm⟩

variable {r : Vbuffer × Cut}

theorem extractDone_flags {buffer : Vbuffer}
    (hf : Flagged (P ++ (s.moved ++ s.skipped ++ s.range ++ T) ++ [e]))
    (hsome : (extractDone h P s T e buffer true).extracted = some r) :
    vbufferIsmodified (extractDone h P s T e buffer true).source = true ∨ Flagged r.1.body := by
  simp only [extractDone, if_true, Option.some.injEq] at hsome ⊢
  subst hsome
  rw [ismodified_iff]
  simp only [vbufferChunkInsertCtl, Cut.insert, Vbuffer.all_mk, flagged_append] at hf ⊢
  tauto

variable {ref : Iterator}

theorem select_flags {src sel : Vbuffer} (hf : vbufferIsmodified b = true)
    (heq : vbufferSelect h b data = (h', src, some (sel, ref))) :
    vbufferIsmodified src = true ∨ Flagged sel.body := by
  unfold vbufferSelect at heq
  simp only [Prod.mk.injEq, Option.map_eq_some_iff] at heq
  obtain ⟨-, rfl, r, hr, rfl, -⟩ := heq
  obtain ⟨P, s, T, e, hparts, hmark, -, ⟨-, hnone⟩ | ⟨h1, buffer, hdone⟩⟩ :=
    extract_partsOf h b data false true
  · simp [hnone] at hr
  rw [hdone] at hr ⊢
  refine extractDone_flags ?_ hr
  rw [ismodified_iff, Vbuffer.all, flagged_append] at hf
  rw [flagged_append]
  refine hf.imp hparts.flagged fun hlast => ?_
  simpa [Flagged] using hmark (by simpa [Flagged] using hlast)

/-! ### Restoration -/

theorem cloneChunks_flags (mode : CloneMode) (hl : Flagged l) : Flagged (cloneChunks mode h l).2 := by
  induction l generalizing h with
  | nil => simp [Flagged] at hl
  | cons c l ih =>
    obtain ⟨x, hx, hm⟩ := hl
    rcases mem_cons.1 hx with rfl | hx
    · refine ⟨_, mem_cons_self, ?_⟩
      split
      · exact hm
      · exact hm
    · exact (ih ⟨x, hx, hm⟩).mono (subset_cons_self _ _)

variable {clone : Bool}

theorem restoredChunks_flags {x : Vbuffer} (hx : x.WF h)
    (hf : Flagged (if clone then x.body.filter fun c => !c.flags.ctl else x.body)) :
    Flagged (restoredChunks h x clone).2.1 := by
  cases clone with
  | false => exact hf
  | true =>
    have hclone := congrArg Prod.snd (restoredChunks_clone hx)
    dsimp only at hclone
    rw [hclone]
    exact cloneChunks_flags .roOrig hf

theorem removeCtl_flags {ctl : Chunk} (hf : Flagged (P ++ ctl :: Q ++ [e])) :
    vbufferIsmodified (vbufferChunkRemoveCtl P ctl Q e).toVbuffer = true := by
  rw [ismodified_iff]
  obtain ⟨x, hx, hm⟩ := hf
  unfold vbufferChunkRemoveCtl Cut.mapChunk
  cases Q with
  | nil =>
    simp only [mem_append, mem_singleton] at hx
    rcases hx with (hx | rfl) | rfl
    · exact ⟨x, by simp [Cut.toVbuffer, hx], hm⟩
    · exact ⟨e.orModified x, by simp [Cut.toVbuffer], by simp [Chunk.orModified, hm]⟩
    · exact ⟨x.orModified ctl, by simp [Cut.toVbuffer], by simp [Chunk.orModified, hm]⟩
  | cons c Q =>
    simp only [mem_append, mem_cons, not_mem_nil, or_false] at hx
    rcases hx with (hx | rfl | rfl | hx) | rfl
    · exact ⟨x, by simp [Cut.toVbuffer, hx], hm⟩
    · exact ⟨c.orModified x, by simp [Cut.toVbuffer], by simp [Chunk.orModified, hm]⟩
    · exact ⟨x.orModified ctl, by simp [Cut.toVbuffer], by simp [Chunk.orModified, hm]⟩
    · exact ⟨x, by simp [Cut.toVbuffer, hx], hm⟩
    · exact ⟨x, by simp [Cut.toVbuffer], hm⟩

theorem restore_flags {src x b' : Vbuffer} {d : Option Vbuffer}
    (hf : vbufferIsmodified src = true ∨ Flagged (restoredChunks h x clone).2.1)
    (heq : vbufferRestore h src ref (some x) clone = (h', b', d, true)) :
    vbufferIsmodified b' = true := by
  have hsrc : (src.seek ref.chunk).before ++ (src.seek ref.chunk).after = src.body :=
    takeWhile_append_dropWhile
  unfold vbufferRestore at heq
  split at heq
  case isFalse => simp at heq
  dsimp only at heq
  split at heq
  · simp at heq
  next ctl after hafter =>
  split at heq
  case isFalse => simp at heq
  obtain ⟨-, rfl, -⟩ := heq
  apply removeCtl_flags
  rw [ismodified_iff, Vbuffer.all, ← hsrc, hafter] at hf
  simp only [flagged_append] at hf ⊢
  tauto

end Flags

/-! ## What an edit keeps -/

def Tracks (h : Heap) (b : Vbuffer) (h' : Heap) (b' : Vbuffer) : Prop :=
  vbufferIsmodified b' = false →
    vbufferIsmodified b = false ∧ h'.mem = h.mem ∧ b'.content h' = b.content h

/-- An edited buffer: changes are flagged, and it is a buffer of its own, without the chunks `used`
of others. -/
structure Edited (used : List ℕ) (h : Heap) (b : Vbuffer) (h' : Heap) (b' : Vbuffer) : Prop where
  tracks : Tracks h b h' b'
  next : h.next ≤ h'.next
  lengths : ∀ a, (h'.mem a).length = (h.mem a).length
  wf : b'.WF h'
  clear : ∀ i ∈ used, i ∉ idsOf b'.all

/-- The chunks of other buffers. -/
def Vbuffer.Unused (b : Vbuffer) (used : List ℕ) (h : Heap) : Prop :=
  ∀ i ∈ used, i < h.next ∧ i ∉ idsOf b.all

section Edited

variable {used : List ℕ} {h h' h'' : Heap} {b b' b'' d : Vbuffer}

theorem Vbuffer.Unused.of_news (hused : b.Unused used h) {l : List ℕ}
    (hnews : ∀ i ∈ l, i ∈ idsOf b.all ∨ h.next ≤ i) : ∀ i ∈ used, i ∉ l := by
  intro i hi hin
  obtain ⟨hlt, hnot⟩ := hused i hi
  rcases hnews i hin with hold | hge
  · exact hnot hold
  · omega

theorem Tracks.refl (h : Heap) (b : Vbuffer) : Tracks h b h b := fun hm => ⟨hm, rfl, rfl⟩

theorem Tracks.of_modified (hm : vbufferIsmodified b' = true) : Tracks h b h' b' :=
  fun hf => absurd hm (by simp [hf])

theorem Tracks.trans (h1 : Tracks h b h' b') (h2 : Tracks h' b' h'' b'') : Tracks h b h'' b'' := by
  rintro hm
  obtain ⟨hm', hmem', hcontent'⟩ := h2 hm
  obtain ⟨hm, hmem, hcontent⟩ := h1 hm'
  exact ⟨hm, hmem'.trans hmem, hcontent'.trans hcontent⟩

theorem Edited.trans (h1 : Edited used h b h' b') (h2 : Edited used h' b' h'' b'') :
    Edited used h b h'' b'' :=
  ⟨h1.tracks.trans h2.tracks, h1.next.trans h2.next, fun a => (h2.lengths a).trans (h1.lengths a),
    h2.wf, h2.clear⟩

theorem Vbuffer.WF.of_lengths (hb : b.WF h) (hnext : h.next ≤ h'.next)
    (hlen : ∀ a, (h'.mem a).length = (h.mem a).length) : b.WF h' := by
  refine ⟨hb.nodup, fun c hc => lt_of_lt_of_le (hb.fresh c hc) hnext, fun c hc => ?_, hb.lastCtl⟩
  refine ⟨?_, (hb.valid c hc).ctlSize⟩
  have hin := (hb.valid c hc).inBlock
  rw [Chunk.bytes, length_take, length_drop] at hin ⊢
  rw [hlen]
  exact hin

theorem Vbuffer.Remarked.ids (hr : b.Remarked b') : idsOf b'.all = idsOf b.all := by
  have hid : ∀ l : List Chunk, idsOf l = idsOf (l.map Chunk.unmark) := by
    intro l
    rw [idsOf, idsOf, map_map]
    rfl
  rw [Vbuffer.all, Vbuffer.all, idsOf_append, idsOf_append, hid b'.body, hr.body, ← hid, hr.last]

theorem Vbuffer.Remarked.content (hr : b.Remarked b') (h : Heap) : b'.content h = b.content h := by
  have hbytes : ∀ l : List Chunk, bytesOf h.mem l = bytesOf h.mem (l.map Chunk.unmark) := by
    intro l
    rw [bytesOf, bytesOf, flatMap_map]
    rfl
  rw [Vbuffer.content, hbytes, hr.body, ← hbytes]
  rfl

theorem Vbuffer.Remarked.wf (hr : b.Remarked b') (hb : b.WF h) : b'.WF h := by
  have hmem : ∀ x ∈ b'.all, ∃ y ∈ b.all, y.unmark = x.unmark := by
    intro x hx
    rcases mem_append.1 hx with hx | hx
    · obtain ⟨y, hy, hyx⟩ := hr.mem hx
      exact ⟨y, mem_append_left _ hy, hyx⟩
    · rw [mem_singleton.1 hx, hr.last]
      exact ⟨b.last, by simp [Vbuffer.all], rfl⟩
  refine ⟨by rw [hr.ids]; exact hb.nodup, fun x hx => ?_, fun x hx => ?_, by rw [hr.last]; exact hb.lastCtl⟩
  · obtain ⟨y, hy, hyx⟩ := hmem x hx
    have hid : y.unmark.id = x.unmark.id := congrArg Chunk.id hyx
    exact hid ▸ hb.fresh y hy
  · obtain ⟨y, hy, hyx⟩ := hmem x hx
    have hvalid : y.unmark.Valid h.mem := ⟨(hb.valid y hy).inBlock, (hb.valid y hy).ctlSize⟩
    rw [hyx] at hvalid
    exact ⟨hvalid.inBlock, hvalid.ctlSize⟩

theorem Wrote.edited (hw : Wrote h b h' b') (hb : b.WF h) (hused : ∀ i ∈ used, i ∉ idsOf b.all) :
    Edited used h b h' b' := by
  refine ⟨fun hm => ?_, hw.next.ge, hw.lengths, (hw.remarked.wf hb).of_lengths hw.next.ge hw.lengths,
    by rwa [hw.remarked.ids]⟩
  obtain ⟨hm', hmem⟩ := hw.marked hm
  refine ⟨hm', hmem, ?_⟩
  rw [Vbuffer.content, hmem]
  exact hw.remarked.content h

theorem Edited.of_news (hm : vbufferIsmodified b' = true) (hnext : h.next ≤ h'.next)
    (hmem : h'.mem = h.mem) (hwf : b'.WF h')
    (hnews : ∀ i ∈ idsOf b'.all, i ∈ idsOf b.all ∨ i ∈ idsOf d.all ∨ h.next ≤ i)
    (hused : b.Unused used h) (hd : ∀ i ∈ idsOf d.all, i ∉ used) :
    Edited used h b h' b' := by
  refine ⟨.of_modified hm, hnext, fun a => by rw [hmem], hwf, fun i hi hin => ?_⟩
  obtain ⟨hlt, hnot⟩ := hused i hi
  rcases hnews i hin with hb | hd' | hge
  · exact hnot hb
  · exact hd i hd' hi
  · omega

variable {pos : Iterator} {k : Cut}

theorem split_marks (heq : _vbufferIteratorSplit h b pos true = (h', some k)) :
    vbufferIsmodified k.toVbuffer = true := by
  rw [ismodified_iff]
  obtain ⟨-, -, rfl, -⟩ | ⟨P, iter, rest, off, -, -, ho, -, -, rfl⟩ := split_inv heq
  · exact ⟨b.last.markIf true, by simp [Cut.toVbuffer], rfl⟩
  · have hmarked : Flagged (P ++ iter.markIf true :: rest) := ⟨iter.markIf true, by simp, rfl⟩
    have hparts := splitChunk_inParts h false (c := iter.markIf true) (by simpa using ho) P rest
    exact flagged_append.2 (.inl (hparts.flagged hmarked))

theorem edited_insert (hm : vbufferIsmodified k.toVbuffer = true)
    (hmem : h'.mem = h.mem) (hnext : h.next ≤ h'.next) (hwf : k.toVbuffer.WF h')
    (hnews : ∀ i ∈ idsOf k.toVbuffer.all, i ∈ idsOf b.all ∨ h.next ≤ i)
    (hused : b.Unused used h) (hd : d.Other used h b) :
    Edited used h b h' (k.insert d.body) := by
  obtain ⟨hdwf, hda, hdused⟩ := hd
  refine .of_news ?_ hnext hmem (hwf.insert_new hmem hnext hnews hdwf hda) ?_ hused hdused
  · rw [ismodified_iff] at hm ⊢
    refine hm.mono ?_
    intro x hx
    simp only [Cut.toVbuffer, Cut.insert, Vbuffer.all_mk, mem_append] at hx ⊢
    tauto
  · intro i hi
    have hk := hnews i
    simp only [Cut.toVbuffer, Cut.insert, Vbuffer.all, idsOf_append, mem_append] at hi hk ⊢
    tauto

theorem insert_edited (hb : b.WF h) (hused : b.Unused used h) (hd : d.Other used h b)
    (hsome : (vbufferIteratorInsert h b pos d).sub.isSome = true) :
    Edited used h b (vbufferIteratorInsert h b pos d).heap
      (vbufferIteratorInsert h b pos d).buffer := by
  unfold vbufferIteratorInsert at hsome ⊢
  split at hsome
  case isFalse => cases hsome
  case isTrue hcheck =>
  rw [if_pos hcheck]
  split at hsome
  case isTrue hempty =>
    rw [if_pos hempty]
    exact ⟨.refl h b, le_rfl, fun _ => rfl, hb, fun i hi => (hused i hi).2⟩
  case isFalse hempty =>
  rw [if_neg hempty]
  rcases hsplit : _vbufferIteratorSplit h b pos true with ⟨h1, _ | k⟩
  · simp [hsplit] at hsome
  · obtain ⟨p, i, hat⟩ := split_at_some hb hsplit
    exact edited_insert (split_marks hsplit) hat.mem hat.next hat.wf hat.news hused hd

theorem edited_insert_marked (hmem : h'.mem = h.mem) (hnext : h.next ≤ h'.next)
    (hwf : k.toVbuffer.WF h') (hnews : ∀ i ∈ idsOf k.toVbuffer.all, i ∈ idsOf b.all ∨ h.next ≤ i)
    (hused : b.Unused used h) (hd : d.Other used h b) :
    Edited used h b h' (k.markModified.insert d.body) := by
  refine edited_insert ?_ hmem hnext (Cut.mapChunk_wf remarks_markModified hwf) ?_ hused hd
  · rw [ismodified_iff]
    obtain ⟨P, Q, e⟩ := k
    cases Q with
    | nil => exact ⟨e.markModified, by simp [Cut.markModified, Cut.mapChunk, Cut.toVbuffer], rfl⟩
    | cons c Q =>
      exact ⟨c.markModified, by simp [Cut.markModified, Cut.mapChunk, Cut.toVbuffer], rfl⟩
  · intro i hi
    rw [Cut.markModified, Cut.mapChunk_ids remarks_markModified] at hi
    exact hnews i hi

theorem append_edited (hb : b.WF h) (hused : b.Unused used h)
    (hd : d.Other used h b) : Edited used h b h (vbufferAppend b d).1 := by
  obtain ⟨k, rfl, heq⟩ := append_eq b d
  rw [heq]
  exact edited_insert_marked rfl le_rfl hb (fun i hi => .inl hi) hused hd

variable {data : Sub}

theorem extract_some (hb : b.WF h)
    (hsome : (_vbufferExtract h b data true false).extracted ≠ none) :
    ∃ lo hi h' ext k, _vbufferExtract h b data true false = ⟨h', k.toVbuffer, some (ext, k)⟩ ∧
      Removed h b lo hi h' ext k := by
  obtain ⟨lo, hi, i, j, h', A, R, T, e, n, w, -, hcarved, hn, heq⟩ := extract_carved hb hsome
  exact ⟨lo, hi, h', _, _, heq, removed_of_carved hcarved hn⟩

theorem extract_edited (hb : b.WF h) (hused : b.Unused used h)
    (hkeep : b.KeepsMark data) (hsome : (_vbufferExtract h b data true false).extracted ≠ none) :
    Edited used h b (_vbufferExtract h b data true false).heap
      (_vbufferExtract h b data true false).source := by
  have hm := extract_flagged hkeep hsome
  obtain ⟨lo, hi, h', ext, k, heq, hr⟩ := extract_some hb hsome
  rw [heq] at hm ⊢
  exact ⟨.of_modified hm, hr.next, fun a => by rw [hr.mem], hr.wf, hused.of_news hr.news⟩

theorem replace_edited (hb : b.WF h) (hused : b.Unused used h)
    (hd : d.Other used h b) (hsome : (vbufferReplace h b data d).2.2.isSome = true) :
    Edited used h b (vbufferReplace h b data d).1 (vbufferReplace h b data d).2.1 := by
  have hext : (_vbufferExtract h b data true false).extracted ≠ none := by
    rintro hnone
    simp [vbufferReplace, hnone] at hsome
  obtain ⟨lo, hi, h', ext, k, heq, hr⟩ := extract_some hb hext
  unfold vbufferReplace
  rw [heq]
  exact edited_insert_marked hr.mem hr.next hr.wf hr.news hused hd

/-- **One edit.** A guarded call that succeeds. -/
theorem call_edited {c : EditCall} (hb : b.WF h) (hused : b.Unused used h) (hg : c.Guarded used h b)
    (heq : c.apply h b = (h', b', .ret true)) : Edited used h b h' b' := by
  have hclear : ∀ i ∈ used, i ∉ idsOf b.all := fun i hi => (hused i hi).2
  obtain ⟨rfl, rfl, hret⟩ : (c.apply h b).1 = h' ∧ (c.apply h b).2.1 = b' ∧
      (c.apply h b).2.2 = .ret true := by
    rw [heq]
    exact ⟨rfl, rfl, rfl⟩
  cases c with
  | insert position buffer => exact insert_edited hb hused hg (Outcome.ret.inj hret)
  | append buffer => exact append_edited hb hused hg
  | erase data =>
    exact extract_edited hb hused hg (Option.isSome_iff_ne_none.1 (Outcome.ret.inj hret))
  | extract data =>
    have hsome : (vbufferExtract h b data).2.2.isSome = true := Outcome.ret.inj hret
    rw [vbufferExtract, Option.isSome_map] at hsome
    exact extract_edited hb hused hg (Option.isSome_iff_ne_none.1 hsome)
  | replace data buffer => exact replace_edited hb hused hg (Outcome.ret.inj hret)
  | subWrite data src => exact (subWrite_wrote hb data src).edited hb hclear
  | iteratorSetbyte position byte =>
    exact (iteratorSetbyte_wrote hb position byte).edited hb hclear
  | setbyte data offset byte => exact (setbyte_wrote hb data offset byte).edited hb hclear
  | setnumber data bigendian num =>
    exact (setnumber_wrote hb data bigendian num).edited hb hclear
  | setbits data offset bits bigendian num =>
    exact (setbits_wrote hb data offset bits bigendian num).edited hb hclear

variable {ref : Iterator}

theorem select_some {src sel : Vbuffer} (hb : b.WF h)
    (heq : vbufferSelect h b data = (h', src, some (sel, ref))) :
    ∃ lo hi A ctl T e, lo ≤ hi ∧ src = ⟨A ++ ctl :: T, e⟩ ∧ ref = ⟨ctl.id, 0, 0, false⟩ ∧
      Selected h b lo hi h' A ctl T e sel := by
  have hsome : (_vbufferExtract h b data false true).extracted ≠ none := by
    rintro hnone
    simp [vbufferSelect, hnone] at heq
  obtain ⟨lo, hi, i, j, h1, A, R, T, e, n, w, hle, hcarved, hn, hext⟩ := extract_carved hb hsome
  obtain ⟨h2, ctl, sel', hsel, hs, -⟩ := select_of_carved hcarved hn hext
  rw [heq] at hsel
  obtain ⟨rfl, rfl, rfl, rfl⟩ := hsel
  exact ⟨lo, hi, A, ctl, T, e, hle, rfl, rfl, hs⟩

variable {clone : Bool}

theorem session_tracks {h1 h2 h3 : Heap} {lo hi : ℕ} {A T : List Chunk} {ctl e : Chunk}
    {sel sel' : Vbuffer} (hle : lo ≤ hi)
    (hs : Selected h b lo hi h1 A ctl T e sel) (hinner : Tracks h1 sel h2 sel')
    (hr : Restored h2 ⟨A ++ ctl :: T, e⟩ A T sel' clone h3 b')
    (hsrc : vbufferIsmodified ⟨A ++ ctl :: T, e⟩ = false) (hsel : vbufferIsmodified sel' = false)
    (hflags : vbufferIsmodified b = true →
      vbufferIsmodified ⟨A ++ ctl :: T, e⟩ = true ∨ Flagged sel.body) :
    vbufferIsmodified b = false ∧ h3.mem = h.mem ∧ b'.content h3 = b.content h := by
  obtain ⟨hclean, hmem, hcontent⟩ := hinner hsel
  refine ⟨?_, hr.mem.trans (hmem.trans hs.mem), ?_⟩
  · refine Bool.eq_false_iff.2 fun hm => ?_
    rcases hflags hm with hm | hm
    · exact absurd hm (by simp [hsrc])
    · have : vbufferIsmodified sel = true := ismodified_iff.2 (flagged_append.2 (.inl hm))
      exact absurd this (by simp [hclean])
  · rw [hr.content, hcontent, hmem, Vbuffer.content, hs.mem, hs.before, hs.range, hs.after,
      take_range_drop _ hle]

/-- A selection, the edits of the selected buffer and the restoration. -/
theorem session_edited {h1 h2 h3 : Heap} {src sel sel' : Vbuffer}
    {left : Option Vbuffer} (hb : b.WF h)
    (hused : b.Unused used h)
    (hselect : vbufferSelect h b data = (h1, src, some (sel, ref)))
    (hinner : sel.WF h1 → sel.Unused (used ++ idsOf src.all) h1 →
      Edited (used ++ idsOf src.all) h1 sel h2 sel') (hkeep : RestoreKeepsMark src sel' clone)
    (hrestore : vbufferRestore h2 src ref (some sel') clone = (h3, b', left, true)) :
    Edited used h b h3 b' := by
  have hflags : vbufferIsmodified b = true → _ := fun hf => select_flags hf hselect
  have hback : _ → vbufferIsmodified b' = true := fun hf => restore_flags hf hrestore
  obtain ⟨lo, hi, A, ctl, T, e, hle, rfl, rfl, hs⟩ := select_some hb hselect
  have hsrcNew := hused.of_news hs.srcNews
  have hi := hinner hs.selWf ?_
  · have hsrc := hs.srcWf.of_lengths hi.next hi.lengths
    have hapart : (Vbuffer.mk (A ++ ctl :: T) e).Apart sel' :=
      fun i hin hsrc => hi.clear i (mem_append_right _ hsrc) hin
    obtain ⟨h3', b3, d3, heq, hr⟩ := restore_spec clone hsrc hs.isSelect hi.wf hapart
    rw [hrestore] at heq
    obtain ⟨rfl, rfl, -, -⟩ := heq
    refine ⟨fun hm => ?_, ?_, fun a => ?_, hr.wf, fun i hu hin => ?_⟩
    · -- no flag came back, so none was there
      have hnone := mt hback (by simp [hm])
      refine session_tracks hle hs hi.tracks hr (Bool.eq_false_iff.2 fun hm => hnone (.inl hm)) ?_
        hflags
      refine Bool.eq_false_iff.2 fun hm => ?_
      rcases hkeep hm with hput | hsrc
      · exact hnone (.inr (restoredChunks_flags hi.wf hput))
      · exact hnone (.inl hsrc)
    · exact hs.next.trans (hi.next.trans hr.next)
    · rw [hr.mem, hi.lengths, hs.mem]
    · have hlt := (hused i hu).1
      have h1 := hs.next
      have h2 := hi.next
      rcases hr.news i hin with hold | hold | hge
      · exact hsrcNew i hu hold
      · exact hi.clear i (mem_append_left _ hu) hold
      · omega
  · intro i hin
    rcases mem_append.1 hin with hu | hsrc
    · exact ⟨lt_of_lt_of_le (hused i hu).1 hs.next, hused.of_news hs.selNews i hu⟩
    · obtain ⟨c, hc, rfl⟩ := (mem_idsOf _).1 hsrc
      exact ⟨hs.srcWf.fresh c hc, fun hsel => hs.apart c.id hsel hsrc⟩

end Edited

/-! ## Every sequence -/

/-- **Sequences of edits**, by induction: the edits of a selected buffer are those of a buffer of
its own, without the chunks around it. -/
theorem run_edited (edits : Edits) {used : List ℕ} {h h' : Heap} {b b' : Vbuffer} (hb : b.WF h)
    (hused : b.Unused used h) (hg : edits.Guarded used h b)
    (hrun : edits.run h b = some (h', b')) : Edited used h b h' b' := by
  induction edits generalizing used h h' b b' with
  | done =>
    obtain ⟨rfl, rfl⟩ : h = h' ∧ b = b' := by simpa [Edits.run] using hrun
    exact ⟨.refl h b, le_rfl, fun _ => rfl, hb, fun i hi => (hused i hi).2⟩
  | call c rest ih =>
    obtain ⟨hc, hg⟩ := hg
    rw [Edits.run] at hrun
    split at hrun
    · next h1 b1 happly =>
      rw [happly] at hg
      have he := call_edited hb hused hc happly
      refine he.trans (ih he.wf (fun i hi => ⟨?_, he.clear i hi⟩) hg hrun)
      exact lt_of_lt_of_le (hused i hi).1 he.next
    · cases hrun
  | select data inner clone rest ihInner ih =>
    rw [Edits.run] at hrun
    rw [Edits.Guarded] at hg
    split at hrun
    · next h1 src sel ref hselect =>
      rw [hselect] at hg
      obtain ⟨hginner, hg⟩ := hg
      split at hrun
      · next h2 sel' hrunInner =>
        rw [hrunInner] at hg
        obtain ⟨hkeep, hg⟩ := hg
        split at hrun
        · next h3 b3 left hrestore =>
          rw [hrestore] at hg
          have he := session_edited hb hused hselect
            (fun hsel husedSel => ihInner hsel husedSel hginner hrunInner) hkeep hrestore
          refine he.trans (ih he.wf (fun i hi => ⟨?_, he.clear i hi⟩) hg hrun)
          exact lt_of_lt_of_le (hused i hi).1 he.next
        · cases hrun
      · cases hrun
    · cases hrun

/-- **Modification tracking.** If a sequence of edits changes the content of a buffer, and no step
drops the flags, the buffer is flagged afterwards. -/
theorem modification_tracked {h h' : Heap} {b b' : Vbuffer} (hb : b.WF h) (edits : Edits)
    (hg : edits.Guarded [] h b) (hrun : edits.run h b = some (h', b'))
    (hdiff : b'.content h' ≠ b.content h) : vbufferIsmodified b' = true := by
  have he := run_edited edits hb (by simp [Vbuffer.Unused]) hg hrun
  by_contra hm
  exact hdiff (he.tracks (by simpa using hm)).2.2

/-- Selecting "ell", writing over its first two bytes, restoring a clone of it, and erasing the byte
behind the first one. -/
def helloEdits : Edits :=
  .select (vbufferSubCreate helloBuffer 1 (some 3))
    (.call (.subWrite (.sized ⟨10, 0, 0, false⟩ 2) [69, 76]) .done) true
    (.call (.erase (.sized ⟨3, 1, 0, false⟩ 1)) .done)

/-- The flags of the write come back with the clone. -/
theorem modification_tracked_hello :
    helloBuffer.WF helloHeap ∧ helloEdits.Guarded [] helloHeap helloBuffer ∧
      ∃ h' b', helloEdits.run helloHeap helloBuffer = some (h', b') ∧
        b'.content h' = [104, 76, 108, 111] ∧ vbufferIsmodified b' = true := by
  have hg : helloEdits.Guarded [] helloHeap helloBuffer :=
    And.intro (And.intro trivial trivial) (And.intro (by decide) (And.intro (by decide) trivial))
  exact ⟨helloBuffer_wf, hg, _, _, rfl, by decide,
    modification_tracked helloBuffer_wf helloEdits hg rfl (by decide)⟩

/-- The block "hel" of `helloHeap`. -/
def helBuffer : Vbuffer := ⟨[⟨3, ⟨false, false, true, false⟩, .basic 1, 0, 3⟩], endChunk 4 true⟩

/-- The block "lo" of `helloHeap`. -/
def loBuffer : Vbuffer := ⟨[⟨5, ⟨false, false, true, false⟩, .basic 2, 0, 2⟩], endChunk 6 true⟩

/-- A buffer of one chunk: erasing all of it, and appending to the selection of all of it, change the
content and leave no flag. -/
theorem edits_untracked :
    vbufferIsmodified helBuffer = false ∧ helBuffer.content helloHeap = [104, 101, 108] ∧
    ((Edits.call (.erase (vbufferSubCreate helBuffer 0 (some 3))) .done).run helloHeap helBuffer).map
      (fun r => (r.2.content r.1, vbufferIsmodified r.2)) = some ([], false) ∧
    ((Edits.select (vbufferSubCreate helBuffer 0 (some 3)) (.call (.append loBuffer) .done) true
      .done).run helloHeap helBuffer).map (fun r => (r.2.content r.1, vbufferIsmodified r.2)) =
        some ([104, 101, 108, 108, 111], false) := by
  decide

end Haka
