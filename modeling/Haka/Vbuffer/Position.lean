import Haka.Vbuffer.Extract

/-!
# Positions by offset

`vbuffer_position`, `vbuffer_iterator_advance` and `vbuffer_sub_create` turn byte offsets into
iterators. Whatever the fragmentation, the iterator they build stands at that logical position, or
at the end of the buffer when the offset is past it.
-/

namespace Haka

open List Vbuffer

/-- The position of an in-range iterator, as `_vbuffer_iterator_fix` finds it. -/
structure FixedAt (b : Vbuffer) (pos : Iterator) (P Q : List Chunk) (off : ℕ) : Prop where
  body : b.body = P ++ Q
  inChunk : off ≤ (Cut.mk P Q b.last).chunk.size
  offset : totalSize P + off = b.offsetOf pos
  chunk : pos.chunk ∈ idsOf P ∨ pos.chunk = (Cut.mk P Q b.last).chunk.id

variable {h : Heap} {b : Vbuffer}

variable {pos : Iterator}

theorem fix_spec (hb : b.WF h) (hr : b.InRange pos) :
    ∃ P Q off, _vbufferIteratorFix b pos = (⟨P, Q, b.last⟩, off) ∧ FixedAt b pos P Q off := by
  have hle := hr.le
  have hmem := mem_ids_of_check hr.check
  obtain ⟨body, e⟩ := b
  rw [all_mk, idsOf_append, mem_append] at hmem
  rcases hmem with hm | hm
  · obtain ⟨P, c, M, rfl, hc, hP⟩ := exists_of_mem_ids hm
    have hsb := sizeBefore_middle (M := M) hc hP
    unfold offsetOf at hle
    simp only [hsb, totalSize_append] at hle
    obtain ⟨m, d, Q, off, hM, hfix, hoff, hsum, -⟩ :=
      fix_append (B := []) hc (by rw [hc]; exact hP)
        (by omega)
        fun d hd => (hb.valid_body d (mem_append_right _ hd)).ctlSize
    simp only [append_nil] at hfix
    refine ⟨P ++ m, d :: Q, off, hfix, by simp [hM], hoff, ?_, ?_⟩
    · unfold offsetOf
      simp only [hsb, totalSize_append]
      omega
    · cases m with
      | nil =>
        right
        obtain ⟨rfl, -⟩ := cons.inj hM
        exact hc.symm
      | cons x m =>
        left
        obtain ⟨rfl, -⟩ := cons.inj hM
        simp [hc]
  · simp only [idsOf_cons, idsOf_nil, mem_singleton] at hm
    have hl := hb.last_notMem
    unfold offsetOf at hle
    rw [hm, sizeBefore_absent hl] at hle
    have ho : pos.offset = 0 := by
      omega
    refine ⟨body, [], 0, fix_last hl hm ho, by simp, Nat.zero_le _, ?_, .inr hm⟩
    unfold offsetOf
    rw [hm, sizeBefore_absent hl, ho]

theorem advanceLoop_spec (before : List Chunk) {Q : List Chunk} {off n : ℕ} {e : Chunk}
    (ho : off ≤ (Cut.mk before Q e).chunk.size) :
    ∃ m Q' off' n', Q = m ++ Q' ∧ advanceLoop before Q off n = ((before ++ m, Q'), off', n') ∧
      off' ≤ (Cut.mk (before ++ m) Q' e).chunk.size ∧
      totalSize m + off' = min (off + n) (totalSize Q) ∧ n' = n - (totalSize Q - off) := by
  induction Q generalizing before off n with
  | nil => exact ⟨[], [], 0, n, rfl, by simp [advanceLoop], Nat.zero_le _, by simp, by simp⟩
  | cons c Q ih =>
    have ho' : off ≤ c.size := ho
    rw [totalSize_cons, advanceLoop, if_neg (by omega)]
    by_cases hn : c.size - off ≥ n
    · rw [if_pos hn]
      refine ⟨[], c :: Q, off + n, 0, rfl, by simp, ?_, ?_, by omega⟩
      · show off + n ≤ c.size
        omega
      · rw [totalSize_nil]
        omega
    · rw [if_neg hn]
      obtain ⟨m, Q', off', n', rfl, hloop, hoff', hsum, hn'⟩ :=
        ih (before ++ [c])
          (Nat.zero_le _)
      rw [append_assoc] at hloop hoff'
      refine ⟨c :: m, Q', off', n', rfl, hloop, hoff', ?_, by omega⟩
      rw [totalSize_cons]
      omega

theorem inRange_of_cut {P Q : List Chunk} (pos : Iterator) (hb : b.WF h) (hbody : b.body = P ++ Q)
    (hc : pos.chunk = (Cut.mk P Q b.last).chunk.id)
    (ho : pos.offset ≤ (Cut.mk P Q b.last).chunk.size) :
    b.InRange pos ∧ b.offsetOf pos = totalSize P + pos.offset ∧
      _vbufferIteratorFix b pos = (⟨P, Q, b.last⟩, pos.offset) := by
  obtain ⟨body, e⟩ := b
  obtain rfl : body = P ++ Q := hbody
  have hnd := hb.nodup
  have hfind : (mk (P ++ Q) e).all.find? (fun c => c.id = pos.chunk) =
      some (Cut.mk P Q e).chunk := by
    have hall : (mk (P ++ Q) e).all = P ++ (Cut.mk P Q e).chunk :: (Q ++ [e]).tail := by
      cases Q <;> simp [Cut.chunk]
    rw [hall] at hnd ⊢
    rw [find?_append, find?_eq_none.2, Option.none_or, find?_cons_of_pos]
    · simp [hc]
    · intro x hx
      rw [idsOf_append, nodup_append] at hnd
      simp only [decide_eq_true_eq]
      intro hxc
      exact hnd.2.2 x.id ((mem_idsOf _).2 ⟨x, hx, rfl⟩) _ (by simp) (hxc.trans hc)
  have hcheck : _vbufferIteratorCheck ⟨P ++ Q, e⟩ pos = true := by
    unfold _vbufferIteratorCheck
    rw [hfind]
    simp [ho]
  have hseek : (mk (P ++ Q) e).seek pos.chunk = ⟨P, Q, e⟩ := by
    cases Q with
    | nil =>
      rw [hc]
      simpa [Cut.chunk] using seek_last hb
    | cons c Q =>
      rw [hc]
      apply seek_mk
      intro hm
      rw [all_mk, append_assoc, idsOf_append, nodup_append] at hnd
      exact hnd.2.2 _ hm _ (by simp) rfl
  have hoffset : (mk (P ++ Q) e).offsetOf pos = totalSize P + pos.offset := by
    have : sizeBefore (P ++ Q) pos.chunk = totalSize ((mk (P ++ Q) e).seek pos.chunk).before :=
      rfl
    unfold offsetOf
    rw [this, hseek]
  refine ⟨⟨hcheck, ?_⟩, hoffset, ?_⟩
  · rw [hoffset, totalSize_append]
    cases Q with
    | nil =>
      have hl := hb.last_size
      simp only [Cut.chunk, headD_nil] at ho
      simp only at hl
      omega
    | cons c Q =>
      simp only [Cut.chunk, headD_cons] at ho
      rw [totalSize_cons]
      omega
  · unfold _vbufferIteratorFix
    simp only [hseek]
    rw [if_neg (by simpa using ho)]

/-- An advanced iterator: where it is, the length it went, which its meter counts modulo `2 ^ 32`, and
that it is not before the chunk it started from. -/
structure AdvancedTo (b : Vbuffer) (pos : Iterator) (n : ℕ) (moved : Iterator) : Prop where
  inRange : b.InRange moved
  offset : b.offsetOf moved = min (b.offsetOf pos + n) (totalSize b.body)
  meter : moved.meter = (pos.meter + min n (totalSize b.body - b.offsetOf pos)) % 2 ^ 32
  registered : moved.registered = pos.registered
  chunk : pos.chunk ∈ idsOf (_vbufferIteratorFix b moved).1.before ∨
    pos.chunk = (_vbufferIteratorFix b moved).1.chunk.id

theorem advance_to (n : ℕ) (hb : b.WF h) (hr : b.InRange pos) :
    AdvancedTo b pos n (vbufferIteratorAdvance b pos n).1 ∧
      (vbufferIteratorAdvance b pos n).2 = some (min n (totalSize b.body - b.offsetOf pos)) := by
  obtain ⟨P, Q, off, hfix, hat⟩ := fix_spec hb hr
  obtain ⟨m, Q', off', n', rfl, hloop, hoff', hsum, rfl⟩ :=
    advanceLoop_spec P (n := n) hat.inChunk
  have hbody : b.body = (P ++ m) ++ Q' := by rw [hat.body, append_assoc]
  have htotal : totalSize b.body = totalSize P + totalSize (m ++ Q') := by
    rw [hat.body, totalSize_append]
  have hlen : n - (n - (totalSize (m ++ Q') - off)) = min n (totalSize b.body - b.offsetOf pos) := by
    rw [← hat.offset]
    omega
  have hadv : vbufferIteratorAdvance b pos n =
      (⟨(Cut.mk (P ++ m) Q' b.last).chunk.id, off',
        (pos.meter + min n (totalSize b.body - b.offsetOf pos)) % 2 ^ 32, pos.registered⟩,
        some (min n (totalSize b.body - b.offsetOf pos))) := by
    unfold vbufferIteratorAdvance
    rw [if_pos hr.check, hfix]
    simp only [hloop, vbufferIteratorUpdate, hlen]
  rw [hadv]
  obtain ⟨hin, hofs, hfix'⟩ := inRange_of_cut
    ⟨_, off', (pos.meter + min n (totalSize b.body - b.offsetOf pos)) % 2 ^ 32, pos.registered⟩ hb
    hbody rfl hoff'
  refine ⟨⟨hin, ?_, rfl, rfl, ?_⟩, rfl⟩
  · rw [hofs, ← hat.offset, totalSize_append]
    dsimp only
    omega
  · rw [hfix']
    rcases hat.chunk with hP | hQ
    · simp [hP]
    · cases m with
      | nil => simpa using .inr hQ
      | cons c m =>
        left
        rw [hQ]
        simp [Cut.chunk]

theorem advance_spec (n : ℕ) (hb : b.WF h) (hr : b.InRange pos) :
    b.InRange (vbufferIteratorAdvance b pos n).1 ∧
      b.offsetOf (vbufferIteratorAdvance b pos n).1 = min (b.offsetOf pos + n) (totalSize b.body) ∧
      pos.chunk ∈ b.reach (vbufferIteratorAdvance b pos n).1 := by
  obtain ⟨hto, -⟩ := advance_to n hb hr
  refine ⟨hto.inRange, hto.offset, ?_⟩
  unfold reach
  rw [mem_append, mem_cons]
  exact hto.chunk.imp_right .inl

theorem position_spec (meter p : ℕ) (hb : b.WF h) : b.InRange (vbufferPosition b meter (some p)) ∧
      b.offsetOf (vbufferPosition b meter (some p)) = min p (totalSize b.body) := by
  obtain ⟨hin, hofs, -⟩ := inRange_of_cut
    ⟨(Cut.mk [] b.body b.last).chunk.id, 0, meter, false⟩ hb rfl rfl (Nat.zero_le _)
  unfold vbufferPosition
  by_cases hp : p > 0
  · simp only [hp, if_true]
    obtain ⟨h1, h2, -⟩ := advance_spec p hb hin
    refine ⟨h1, ?_⟩
    rw [h2, hofs]
    simp
  · simp only [hp, if_false]
    refine ⟨hin, ?_⟩
    rw [hofs, totalSize_nil]
    simp only
    omega

theorem position_end (meter : ℕ) (hb : b.WF h) : b.InRange (vbufferPosition b meter none) ∧
      b.offsetOf (vbufferPosition b meter none) = totalSize b.body ∧
      ∀ i ∈ idsOf b.all, i ∈ b.reach (vbufferPosition b meter none) := by
  obtain ⟨hin, hofs, hfix⟩ := inRange_of_cut (P := b.body) (Q := [])
    ⟨b.last.id, 0, meter, false⟩ hb (by simp) rfl (Nat.zero_le _)
  refine ⟨hin, hofs, fun i hi => ?_⟩
  unfold reach vbufferPosition
  rw [hfix]
  simpa [Cut.chunk, Vbuffer.all] using hi

theorem subCreate_covers (a n : ℕ) (hb : b.WF h) :
    b.Covers (vbufferSubCreate b a (some n)) (min a (totalSize b.body))
      (min (a + n) (totalSize b.body)) := by
  obtain ⟨hin, hofs⟩ := position_spec 0 a hb
  obtain ⟨hin', hofs', hreach⟩ := advance_spec n hb hin.copy
  rw [offsetOf_copy, hofs] at hofs'
  have hhi : min (min a (totalSize b.body) + n) (totalSize b.body) = min (a + n) (totalSize b.body) := by
    omega
  have hcov := Vbuffer.Covers.between hin hin' hreach (by rw [hofs', hofs]; omega)
  rw [hofs, hofs', hhi] at hcov
  exact hcov

theorem subCreate_all_covers (a : ℕ) (hb : b.WF h) :
    b.Covers (vbufferSubCreate b a none) (min a (totalSize b.body)) (totalSize b.body) := by
  obtain ⟨hin, hofs⟩ := position_spec 0 a hb
  obtain ⟨hin', hofs', hreach⟩ := position_end 0 hb
  have hcov := Vbuffer.Covers.between hin hin' (hreach _ (mem_ids_of_check hin.check))
    (by rw [hofs', hofs]; omega)
  rw [hofs, hofs'] at hcov
  exact hcov

end Haka
