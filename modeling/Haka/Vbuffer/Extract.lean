import Haka.Vbuffer.Split

/-!
# Extraction

`_vbuffer_extract` carves a buffer into the chunks before the range, the chunks of the range and the
chunks after it (`Carved`); then the loop sorts the chunks of the range into those it moves out and
the control chunks it leaves (`Passed.pass`). `extract_spec` says that this is all the function
does, for both kinds of subs.
-/

namespace Haka

open List

/-! ## Well-formed subs -/

/-- The sub is well formed and covers the bytes from `lo` to `hi`: its iterators are in range, the
beginning not after the end. A sized sub stops at the end of the buffer. -/
inductive Vbuffer.Covers (b : Vbuffer) : Sub → ℕ → ℕ → Prop
  | sized {begin : Iterator} {length : ℕ} (hbegin : b.InRange begin) :
    b.Covers (.sized begin length) (b.offsetOf begin)
      (min (b.offsetOf begin + length) (totalSize b.body))
  | between {begin «end» : Iterator} (hbegin : b.InRange begin) (hend : b.InRange «end»)
    (hreach : begin.chunk ∈ b.reach «end») (hle : b.offsetOf begin ≤ b.offsetOf «end») :
    b.Covers (.between begin «end») (b.offsetOf begin) (b.offsetOf «end»)

def Vbuffer.beginIndex (b : Vbuffer) (data : Sub) : ℕ := b.index data.begin

def Vbuffer.endIndex (b : Vbuffer) : Sub → ℕ
  | .sized begin length =>
    b.index begin + afterBytes ((itemsOf b.body).drop (b.index begin)) length
  | .between _ «end» => b.index «end»

variable {b : Vbuffer} {data : Sub} {lo hi p i : ℕ} {h h' : Heap} {R T A : List Chunk} {e : Chunk}
  {k : Cut}

theorem Vbuffer.Covers.check (hc : b.Covers data lo hi) : _vbufferSubCheck b data = true := by
  cases hc with
  | sized hbegin => exact hbegin.check
  | between hbegin hend _ _ =>
    rw [_vbufferSubCheck, hbegin.check, hend.check]
    rfl

theorem Vbuffer.Covers.le (hc : b.Covers data lo hi) : lo ≤ hi ∧ hi ≤ totalSize b.body := by
  cases hc with
  | sized hbegin => exact ⟨le_min (Nat.le_add_right _ _) hbegin.le, min_le_right _ _⟩
  | between _ hend _ hle => exact ⟨hle, hend.le⟩

theorem Vbuffer.Covers.begin (hc : b.Covers data lo hi) :
    b.InRange data.begin ∧ b.offsetOf data.begin = lo := by
  cases hc with
  | sized hbegin => exact ⟨hbegin, rfl⟩
  | between hbegin _ _ _ => exact ⟨hbegin, rfl⟩

variable {pos : Iterator}

theorem check_copy (hm : pos.chunk ∈ idsOf b.all) :
    _vbufferIteratorCheck b (vbufferIteratorCopy pos) = true := by
  obtain ⟨c, hc, hid⟩ := (mem_idsOf _).1 hm
  unfold _vbufferIteratorCheck vbufferIteratorCopy
  cases hf : b.all.find? fun c => c.id = pos.chunk with
  | none =>
    have := find?_eq_none.1 hf c hc
    simp [hid] at this
  | some d => simp

theorem Vbuffer.InRange.copy (hr : b.InRange pos) : b.InRange (vbufferIteratorCopy pos) :=
  ⟨check_copy (mem_ids_of_check hr.check), hr.le⟩

/-! ## The loop -/

namespace Passed

variable {m : ℕ → List UInt8} (ins : Bool) {s : Passed}

theorem foldl_perm (R : List Chunk) :
    ((R.foldl (pass ins) s).moved ++ (R.foldl (pass ins) s).skipped ++
      (R.foldl (pass ins) s).range).Perm (s.moved ++ s.skipped ++ s.range ++ R) := by
  induction R generalizing s with
  | nil => simp
  | cons c R ih =>
    refine ih.trans ?_
    unfold pass
    rw [perm_iff_count]
    intro a
    split_ifs <;> simp only [count_append, count_cons, count_nil] <;> omega

theorem foldl_ctl (R : List Chunk) (hs : ∀ c ∈ s.moved ++ s.skipped, c.flags.ctl = true) :
    ∀ c ∈ (R.foldl (pass ins) s).moved ++ (R.foldl (pass ins) s).skipped, c.flags.ctl = true := by
  induction R generalizing s with
  | nil => exact hs
  | cons c R ih =>
    refine ih ?_
    intro d hd
    unfold pass at hd
    split_ifs at hd with hc hr
    · simp only [mem_append, mem_singleton] at hd hs
      rcases hd with hd | hd | rfl
      · exact hs d (.inl hd)
      · exact hs d (.inr hd)
      · simp_all
    · simp only [mem_append, mem_singleton] at hd hs
      rcases hd with (hd | rfl) | hd
      · exact hs d (.inl hd)
      · simp_all
      · exact hs d (.inr hd)
    · exact hs d hd

theorem foldl_bytes (R : List Chunk) (hR : ∀ c ∈ R, c.Valid m) :
    bytesOf m (R.foldl (pass ins) s).range = bytesOf m s.range ++ bytesOf m R := by
  induction R generalizing s with
  | nil => simp
  | cons c R ih =>
    rw [foldl_cons, ih fun d hd => hR d (by simp [hd])]
    have hc := hR c (by simp)
    unfold pass
    split_ifs with h1 h2
    · simp [hc.bytes_of_ctl (by simp_all)]
    · simp [hc.bytes_of_ctl (by simp_all)]
    · simp

theorem foldl_data (R : List Chunk) (hR : ∀ c ∈ R, c.flags.ctl = false) :
    R.foldl (pass ins) s = { s with range := s.range ++ R } := by
  induction R generalizing s with
  | nil => simp
  | cons c R ih =>
    rw [foldl_cons, ih fun d hd => hR d (by simp [hd])]
    simp [pass, hR c (by simp)]

theorem foldl_select (R : List Chunk) :
    R.foldl (pass true) s = { s with range := s.range ++ R } := by
  induction R generalizing s with
  | nil => simp
  | cons c R ih =>
    rw [foldl_cons, ih]
    simp [pass]

end Passed

variable {size : ℕ} {rest : List Chunk}

theorem extractLoop_walk (h : Heap) (endId : ℕ) (mark ins : Bool) (s : Passed) (hne : rest ≠ [])
    (hle : size ≤ totalSize rest)
    (hv : ∀ c ∈ rest, c.flags.ctl = true → c.size = 0) :
    ∃ m d Q off, rest = m ++ d :: Q ∧ off ≤ d.size ∧ totalSize m + off = size ∧
      afterBytes (itemsOf rest) size = (itemsOf m).length + off ∧
      extractLoop h (some size) endId mark ins s rest =
        extractLoop h (some off) endId mark ins (m.foldl (Passed.pass ins) s) (d :: Q) := by
  induction rest generalizing s size with
  | nil => exact absurd rfl hne
  | cons c rest ih =>
    rw [totalSize_cons] at hle
    by_cases hc : size > c.size
    · have hne' : rest ≠ [] := by
        rintro rfl
        rw [totalSize_nil] at hle
        omega
      obtain ⟨m, d, Q, off, rfl, hoff, hsz, hitems, hloop⟩ :=
        ih (s.pass ins c) hne' (show size - c.size ≤ totalSize rest by omega)
          fun d hd => hv d (by simp [hd])
      refine ⟨c :: m, d, Q, off, rfl, hoff, ?_, ?_, ?_⟩
      · rw [totalSize_cons]
        omega
      · rw [itemsOf_cons, afterBytes_pass _ (hv c (by simp)) hc, hitems, itemsOf_cons,
          length_append, Nat.add_assoc]
      · rw [extractLoop, if_pos hc, hloop]
        rfl
    · refine ⟨[], c, rest, size, rfl, by omega, by simp, ?_, rfl⟩
      rw [itemsOf_cons, afterBytes_stop _ (hv c (by simp)) (by omega)]
      simp

variable {endId : ℕ} {mark : Bool}

theorem extractLoop_past {ins : Bool} {s : Passed} (hlt : rest = [] ∨ totalSize rest < size) :
    extractLoop h (some size) endId mark ins s rest =
      (h, rest.foldl (Passed.pass ins) s, [], true) := by
  induction rest generalizing s size with
  | nil => rfl
  | cons c rest ih =>
    simp only [cons_ne_nil, false_or, totalSize_cons] at hlt
    rw [extractLoop, if_pos (by omega), ih (.inr (by omega))]
    rfl

/-- The sized loop cuts the buffer after `size` bytes, or at its end, unless it has to mark a
read-only chunk. -/
theorem extractLoop_sized (endId size : ℕ) (mark ins : Bool) (s : Passed)
    (hb : (Vbuffer.mk (A ++ rest) e).WF h) :
    (∃ h' s' T, extractLoop h (some size) endId mark ins s rest = (h', s', T, false) ∧
      ¬(mark = true → (Vbuffer.mk (A ++ rest) e).Writable)) ∨
    ∃ h' R T, extractLoop h (some size) endId mark ins s rest =
        (h', R.foldl (Passed.pass ins) s, T, true) ∧
      SplitAt h ⟨A ++ rest, e⟩ (totalSize A + min size (totalSize rest))
        ((itemsOf A).length + afterBytes (itemsOf rest) size) h' ⟨A ++ R, T, e⟩ := by
  have hv : ∀ c ∈ rest, c.flags.ctl = true → c.size = 0 :=
    fun c hc => (hb.valid c (by simp [hc])).ctlSize
  by_cases hcase : rest = [] ∨ totalSize rest < size
  · refine .inr ⟨h, rest, [], extractLoop_past hcase, ?_⟩
    have hmin : min size (totalSize rest) = totalSize rest := by
      rcases hcase with rfl | hlt
      · simp
      · omega
    have hitems : afterBytes (itemsOf rest) size = (itemsOf rest).length := by
      rcases hcase with rfl | hlt
      · cases size <;> rfl
      · exact afterBytes_past (by rw [← totalSize_eq_items hv]; exact hlt)
    rw [hmin, ← totalSize_append, hitems, ← length_append, ← itemsOf_append]
    exact splitAt_end false hb
  · rw [not_or, not_lt] at hcase
    obtain ⟨m, d, Q, off, rfl, hoff, hsz, hitems, hloop⟩ :=
      extractLoop_walk h endId mark ins s hcase.1 hcase.2 hv
    have hd : d ∈ (Vbuffer.mk (A ++ (m ++ d :: Q)) e).all := by simp
    rw [hloop, extractLoop, if_neg (by omega)]
    by_cases hro : (mark && !d.flags.writable) = true
    · exact .inl ⟨_, _, _, if_pos hro, not_writable_of_readonly hd hro⟩
    have hs := splitChunk_spec ((hb.valid d hd).markIf mark) (by simpa using hb.fresh d hd)
      (by simpa using hoff)
    have hat := splitAt_of_isSplit mark hb
      (show A ++ (m ++ d :: Q) = (A ++ m) ++ d :: Q by simp) hoff hs
    have hsum : totalSize A + min size (totalSize (m ++ d :: Q)) = totalSize (A ++ m) + off := by
      rw [Nat.min_eq_left hcase.2, totalSize_append]
      omega
    refine .inr ⟨(splitChunk h (d.markIf mark) off).1, m ++ (splitChunk h (d.markIf mark) off).2.1,
      (splitChunk h (d.markIf mark) off).2.2 ++ Q, ?_, ?_⟩
    · rw [if_neg hro, foldl_append, Passed.foldl_data ins (splitChunk h (d.markIf mark) off).2.1]
      -- a chunk that is cut, or taken whole, after a positive offset holds bytes
      intro c hc
      rw [(hs.flags c (mem_append_left _ hc)).1, Chunk.markIf_ctl]
      by_contra hctl
      have hsize := (hb.valid d hd).ctlSize (by simpa using hctl)
      have h0 : off = 0 := by omega
      rw [h0] at hc
      simp [splitChunk] at hc
    · rw [itemsOf_append, length_append, Nat.add_assoc, ← hitems, append_assoc] at hat
      rw [hsum]
      exact hat

/-! ## The carved buffer -/

theorem Vbuffer.WF.mono (hb : b.WF h) (hmem : h'.mem = h.mem) (hnext : h.next ≤ h'.next) : b.WF h' :=
  ⟨hb.nodup, fun c hc => lt_of_lt_of_le (hb.fresh c hc) hnext, by rw [hmem]; exact hb.valid,
    hb.lastCtl⟩

/-- The buffer `b` carved into the chunks `A` before the bytes from `lo` to `hi`, the chunks `R` of
the range and `T` after it; its items are those from `i` to `j`. -/
structure Carved (h : Heap) (b : Vbuffer) (lo hi i j : ℕ) (h' : Heap) (A R T : List Chunk)
    (e : Chunk) : Prop where
  mem : h'.mem = h.mem
  next : h.next ≤ h'.next
  wf : (Vbuffer.mk (A ++ R ++ T) e).WF h'
  before : bytesOf h.mem A = (b.content h).take lo
  range : bytesOf h.mem R = ((b.content h).take hi).drop lo
  after : bytesOf h.mem T = (b.content h).drop hi
  items : itemsOf A ++ itemsOf R ++ itemsOf T = itemsOf b.body
  itemsBefore : itemsOf A = (itemsOf b.body).take i
  itemsRange : itemsOf R = ((itemsOf b.body).take j).drop i
  itemsAfter : itemsOf T = (itemsOf b.body).drop j
  writable : b.Writable → (Vbuffer.mk (A ++ R ++ T) e).Writable
  last : e.id = b.last.id
  news : ∀ i ∈ idsOf (Vbuffer.mk (A ++ R ++ T) e).all, i ∈ idsOf b.all ∨ h.next ≤ i

theorem SplitAt.content (hs : SplitAt h b p i h' k) : k.toVbuffer.content h' = b.content h := by
  unfold Vbuffer.content Cut.toVbuffer
  rw [hs.mem, bytesOf_append, hs.before, hs.after, take_append_drop]
  rfl

theorem SplitAt.items (hs : SplitAt h b p i h' k) : itemsOf k.toVbuffer.body = itemsOf b.body := by
  unfold Cut.toVbuffer
  rw [itemsOf_append, hs.itemsBefore, hs.itemsAfter, take_append_drop]

theorem SplitAt.totalSize_toVbuffer (hb : b.WF h) (hs : SplitAt h b p i h' k) : totalSize k.toVbuffer.body = totalSize b.body := by
  rw [← hs.wf.length_content, ← hb.length_content, hs.content]

theorem sizeBefore_eq_items (hb : b.WF h) (id : ℕ) :
    sizeBefore b.body id = (itemsBefore b.body id).count .byte :=
  totalSize_eq_items fun c hc => (hb.valid_body c (takeWhile_subset _ hc)).ctlSize

theorem SplitAt.offsetOf (hb : b.WF h) (hs : SplitAt h b p i h' k) (hm : pos.chunk ∈ idsOf b.all) :
    k.toVbuffer.offsetOf pos = b.offsetOf pos := by
  unfold Vbuffer.offsetOf
  rw [sizeBefore_eq_items hb, sizeBefore_eq_items hs.wf, hs.starts _ hm]

theorem SplitAt.index (hs : SplitAt h b p i h' k) (hm : pos.chunk ∈ idsOf b.all) :
    k.toVbuffer.index pos = b.index pos := by
  unfold Vbuffer.index
  rw [hs.starts _ hm, hs.items]

theorem middle_of_ends {α : Type*} {a r t c : List α} (hc : a ++ r ++ t = c) (ha : a = c.take lo)
    (ht : t = c.drop hi) : r = (c.take hi).drop lo := by
  have har : a ++ r = c.take hi := by
    have hcut : a ++ r ++ c.drop hi = c.take hi ++ c.drop hi := by
      rw [← ht, hc, ht, take_append_drop]
    exact append_cancel_right hcut
  rw [← har]
  by_cases hlo : lo ≤ c.length
  · have hlen : a.length = lo := by
      rw [ha, length_take]
      omega
    rw [← hlen, drop_left]
  · have hlen : (a ++ r).length ≤ c.length := by
      rw [har]
      exact length_take_le' _ _
    have hac : a = c := by rw [ha, take_of_length_le (by omega)]
    rw [hac, length_append] at hlen
    have hr : r = [] := length_eq_zero_iff.1 (by omega)
    rw [hr, append_nil, hac, drop_eq_nil_of_le (by omega)]

variable {h1 : Heap} {j : ℕ} {k' : Cut}

theorem Carved.of_splits {h2 : Heap} {q x y : ℕ} (h1at : SplitAt h b p x h1 k)
    (hmem : h2.mem = h1.mem) (hnext : h1.next ≤ h2.next) (h2at : SplitAt h2 k.toVbuffer q y h' k')
    (hk' : k'.toVbuffer = ⟨A ++ R ++ T, e⟩) (hA : bytesOf h.mem A = (b.content h).take lo)
    (hT : bytesOf h.mem T = (b.content h).drop hi) (hAi : itemsOf A = (itemsOf b.body).take i)
    (hTi : itemsOf T = (itemsOf b.body).drop j) :
    Carved h b lo hi i j h' A R T e := by
  have hm : h'.mem = h.mem := by rw [h2at.mem, hmem, h1at.mem]
  have hc : bytesOf h.mem A ++ bytesOf h.mem R ++ bytesOf h.mem T = b.content h := by
    have hcontent := h2at.content
    rw [hk'] at hcontent
    unfold Vbuffer.content at hcontent
    rw [hm, hmem, h1at.mem, bytesOf_append, bytesOf_append] at hcontent
    rw [hcontent, ← h1at.content]
    unfold Vbuffer.content
    rw [h1at.mem]
  have hci : itemsOf A ++ itemsOf R ++ itemsOf T = itemsOf b.body := by
    rw [← h1at.items, ← h2at.items, hk', itemsOf_append, itemsOf_append]
  refine ⟨hm, ?_, ?_, hA, middle_of_ends hc hA hT, hT, hci, hAi, middle_of_ends hci hAi hTi, hTi,
    ?_, ?_, ?_⟩
  · exact h1at.next.trans (hnext.trans h2at.next)
  · rw [← hk']
    exact h2at.wf
  · intro hw
    rw [← hk']
    exact h2at.writable (h1at.writable hw)
  · have : k'.toVbuffer.last.id = b.last.id := h2at.last.trans h1at.last
    rwa [hk'] at this
  · intro n hn
    rw [← hk'] at hn
    rcases h2at.news n hn with h1 | h1
    · exact h1at.news n h1
    · have := h1at.next
      right; omega

theorem Carved.mono {h'' : Heap} (hc : Carved h b lo hi i j h' A R T e)
    (hmem : h''.mem = h'.mem) (hnext : h'.next ≤ h''.next) :
    Carved h b lo hi i j h'' A R T e :=
  { hc with mem := hmem.trans hc.mem, next := hc.next.trans hnext, wf := hc.wf.mono hmem hnext }

/-- The second split of a sub between two iterators: a position not after the cut `k` is found
before it, and the chunks after the cut stay as they are. -/
theorem split_inside (pos : Iterator) (mark : Bool) (hb : k.toVbuffer.WF h)
    (hpos : pos.chunk ∈ idsOf k.before ∨ pos.chunk = k.chunk.id)
    (hle : k.toVbuffer.offsetOf pos ≤ totalSize k.before) :
    (_vbufferIteratorSplit h k.toVbuffer pos mark = (h, none) ∧
      ¬(mark = true → k.toVbuffer.Writable)) ∨
    ∃ h' A R T e, _vbufferIteratorSplit h k.toVbuffer pos mark = (h', some ⟨A, R ++ T, e⟩) ∧
      SplitAt h k.toVbuffer (k.toVbuffer.offsetOf pos) (k.toVbuffer.index pos) h' ⟨A, R ++ T, e⟩ ∧
      bytesOf h.mem T = bytesOf h.mem k.after ∧ itemsOf T = itemsOf k.after ∧ k.chunk.id ∉ idsOf R ∧
      (T = [] ∨ ∃ t T', T = t :: T' ∧ t.id = k.chunk.id) := by
  obtain ⟨P, B, e⟩ := k
  have hnd := hb.nodup
  unfold Vbuffer.offsetOf at hle ⊢
  simp only [Cut.toVbuffer] at hb hle hnd ⊢
  by_cases hm : pos.chunk ∈ idsOf P
  · obtain ⟨P, c, M, rfl, hc, hP⟩ := Vbuffer.exists_of_mem_ids hm
    have hsb : sizeBefore (P ++ c :: M ++ B) pos.chunk = totalSize P := by
      rw [append_assoc, cons_append, sizeBefore_middle hc hP]
    rw [hsb, totalSize_append] at hle
    obtain ⟨m, d, Q, off, hM, -, hsplit, hs, hat⟩ :=
      split_stretch mark hb hc (by rw [hc]; exact hP) (by omega)
    by_cases hro : (mark && !d.flags.writable) = true
    · rw [if_pos hro] at hsplit
      exact .inl ⟨hsplit, not_writable_of_readonly (by simp [hM]) hro⟩
    rw [if_neg hro] at hsplit
    rw [← append_assoc _ Q B] at hsplit hat
    have hindex : (Vbuffer.mk (P ++ c :: M ++ B) e).index pos =
        (itemsOf P).length + afterBytes (itemsOf (c :: M ++ B)) pos.offset := by
      rw [append_assoc, cons_append, index_middle hc hP]
    rw [hsb, hindex]
    refine .inr ⟨(splitChunk h (d.markIf mark) off).1, P ++ m ++ (splitChunk h (d.markIf mark) off).2.1,
      (splitChunk h (d.markIf mark) off).2.2 ++ Q, B, e, hsplit, hat, rfl, rfl, ?_, ?_⟩
    · -- the chunk after the cut is neither in the stretch nor one of the parts of a chunk of it
      intro hmem
      have hk : (Cut.mk (P ++ c :: M) B e).chunk.id ∈ idsOf (B ++ [e]) := by
        cases B <;> simp [Cut.chunk]
      have hall : (Cut.mk (P ++ c :: M) B e).chunk.id ∈
          idsOf (Vbuffer.mk (P ++ c :: M ++ B) e).all := by
        rw [Vbuffer.all_mk, append_assoc (P ++ c :: M), idsOf_append, mem_append]
        exact .inr hk
      rw [Vbuffer.all_mk, hM, append_assoc, idsOf_append, nodup_append] at hnd
      obtain ⟨-, -, hdisj⟩ := hnd
      rw [idsOf_append, mem_append] at hmem
      rcases hmem with hmem | hmem
      · rcases hs.ids _ (by rw [idsOf_append]; exact mem_append_right _ hmem) with he | ⟨hge, -⟩
        · rw [Chunk.markIf_id] at he
          exact hdisj _ (by simp) _ hk he.symm
        · obtain ⟨x, hx, hxi⟩ := (mem_idsOf _).1 hall
          have := hb.fresh x hx
          omega
      · exact hdisj _ (by simp [hmem]) _ hk rfl
    · cases B with
      | nil => exact .inl rfl
      | cons t T' => exact .inr ⟨t, T', rfl, rfl⟩
  · have hk := hpos.resolve_left hm
    cases B with
    | nil =>
      simp only [append_nil] at hb hle ⊢
      have hl := hb.last_notMem
      have hke : pos.chunk = e.id := hk
      rw [hke, sizeBefore_absent hl] at hle ⊢
      have ho : pos.offset = 0 := by
        simp only at hle
        omega
      have hsplit := split_last (h := h) mark hl hke ho
      by_cases hro : (mark && !e.flags.writable) = true
      · rw [if_pos hro] at hsplit
        exact .inl ⟨hsplit, not_writable_of_readonly (by simp) hro⟩
      rw [if_neg hro] at hsplit
      refine .inr ⟨h, P, [], [], e.markIf mark, hsplit, ?_, rfl, rfl, by simp, .inl rfl⟩
      rw [ho, index_last (by rw [hke]; exact hl)]
      exact splitAt_end mark hb
    | cons t T' =>
      have hkt : t.id = pos.chunk := hk.symm
      rw [sizeBefore_middle hkt hm] at hle ⊢
      rw [index_middle hkt hm]
      have hstretch : P ++ t :: T' = P ++ [t] ++ T' := by simp
      rw [hstretch] at hb ⊢
      obtain ⟨m, d, Q, off, hM, hoff, hsplit, -, hat⟩ :=
        split_stretch mark hb hkt (by rw [hkt]; exact hm) (by omega)
      have h0 : off = 0 := by omega
      obtain ⟨rfl, rfl, rfl⟩ : m = [] ∧ d = t ∧ Q = [] := by
        cases m with
        | nil => simpa [eq_comm] using hM
        | cons x m => simp at hM
      simp only [h0, splitChunk, if_true] at hsplit hat
      by_cases hro : (mark && !d.flags.writable) = true
      · rw [if_pos hro] at hsplit
        exact .inl ⟨hsplit, not_writable_of_readonly (by simp) hro⟩
      rw [if_neg hro] at hsplit
      refine .inr ⟨h, P, [], d.markIf mark :: T', e, ?_, ?_, ?_, ?_, by simp, .inr ⟨_, _, rfl, ?_⟩⟩
      · simpa using hsplit
      · simpa using hat
      · simp
      · simp
      · simp [Cut.chunk]

/-- An address allocated between two heaps, used by no chunk of the list. -/
structure NewId (h h' : Heap) (l : List Chunk) (i : ℕ) : Prop where
  lower : h.next ≤ i
  upper : i < h'.next
  notMem : i ∉ idsOf l

theorem NewId.of_splits {q x y : ℕ} (hat : SplitAt h b p x h1 k)
    (hat' : SplitAt { h1 with next := h1.next + 1 } k.toVbuffer q y h' k') :
    NewId h h' k'.toVbuffer.all h1.next := by
  have hnext : h1.next + 1 ≤ h'.next := hat'.next
  refine ⟨hat.next, hnext, fun hi => ?_⟩
  rcases hat'.news h1.next hi with hi | hi
  · obtain ⟨x, hx, hxi⟩ := (mem_idsOf _).1 hi
    have := hat.wf.fresh x hx
    omega
  · simp only at hi
    omega

theorem Carved.newId (hc : Carved h b lo hi i j h' A R T e) :
    NewId h { h' with next := h'.next + 1 } (A ++ R ++ T ++ [e]) h'.next := by
  refine ⟨hc.next, Nat.lt_succ_self _, fun hi => ?_⟩
  obtain ⟨x, hx, hxi⟩ := (mem_idsOf _).1 hi
  have := hc.wf.fresh x (by simpa using hx)
  omega

theorem extractLoop_none (h : Heap) (endId : ℕ) (mark ins : Bool) (s : Passed) (l : List Chunk) :
    extractLoop h none endId mark ins s l =
      (h, (l.takeWhile fun c => c.id ≠ endId).foldl (Passed.pass ins) s,
        l.dropWhile fun c => c.id ≠ endId, true) := by
  induction l generalizing s with
  | nil => rfl
  | cons c l ih =>
    rw [extractLoop]
    by_cases hid : c.id = endId
    · simp [hid]
    · rw [if_neg hid, ih, takeWhile_cons_of_pos (by simpa using hid),
        dropWhile_cons_of_pos (by simpa using hid), foldl_cons]

theorem extractFrom_between {begin : Iterator} {ins : Bool}
    (hsplit : _vbufferIteratorSplit h b (vbufferIteratorCopy begin) mark = (h', some k)) :
    extractFrom h b begin none endId mark ins = extractDone { h' with next := h'.next + 1 } k.before
        ((k.after.takeWhile fun c => c.id ≠ endId).foldl (Passed.pass ins) ⟨[], [], []⟩)
        (k.after.dropWhile fun c => c.id ≠ endId) k.last
        ⟨[], endChunk h'.next k.chunk.flags.writable⟩ ins := by
  unfold extractFrom
  simp only [hsplit, _vbufferInit, vbufferChunkCreateEnd, Option.isSome_none, Bool.false_or]
  cases ins with
  | false => rw [if_pos (by simp), extractLoop_none]
  | true =>
    rw [if_neg (by simp), Passed.foldl_select]
    rfl

/-- **Extraction.** On a well-formed sub, `_vbuffer_extract` carves the buffer at the ends of the
sub and sorts the chunks of the range in one pass, unless it has to mark a read-only chunk. -/
theorem extract_cases (mark ins : Bool) (hb : b.WF h) (hc : b.Covers data lo hi) :
    ((_vbufferExtract h b data mark ins).extracted = none ∧ ¬(mark = true → b.Writable)) ∨
    ∃ h' A R T e n w, Carved h b lo hi (b.beginIndex data) (b.endIndex data) h' A R T e ∧
      NewId h h' (A ++ R ++ T ++ [e]) n ∧ (b.Writable → w = true) ∧
      _vbufferExtract h b data mark ins =
        extractDone h' A (R.foldl (Passed.pass ins) ⟨[], [], []⟩) T e ⟨[], endChunk n w⟩ ins := by
  have hcheck := hc.check
  have hwr : ∀ {k : Cut}, k.toVbuffer.Writable → k.chunk.flags.writable = true := by
    intro k hk
    apply hk
    unfold Cut.toVbuffer Vbuffer.all Cut.chunk
    cases k.after <;> simp
  unfold _vbufferExtract
  rw [if_pos hcheck]
  cases hc with
  | @sized begin length hbegin =>
    unfold extractFrom
    rcases split_cases mark hb hbegin.copy with ⟨hsplit, hnw⟩ | ⟨h1, k, hsplit, hat⟩
    · left
      simp only [hsplit]
      exact ⟨trivial, hnw⟩
    rw [offsetOf_copy] at hat
    have hwf : (Vbuffer.mk (k.before ++ k.after) k.last).WF { h1 with next := h1.next + 1 } :=
      hat.wf.mono rfl (Nat.le_succ _)
    simp only [hsplit, _vbufferInit, vbufferChunkCreateEnd, Option.isSome_some, Bool.true_or, if_true]
    rcases extractLoop_sized 0 length mark ins ⟨[], [], []⟩ hwf with
      ⟨h', s', T, hloop, hnw⟩ | ⟨h', R, T, hloop, hat'⟩
    · left
      simp only [hloop]
      exact ⟨trivial, fun hw => hnw fun hm => hat.writable (hw hm)⟩
    right
    have hcut : totalSize k.before + min length (totalSize k.after) =
        min (b.offsetOf begin + length) (totalSize b.body) := by
      have htot := hat.totalSize_toVbuffer hb
      simp only [Cut.toVbuffer, totalSize_append] at htot
      have := hat.size
      omega
    have hidx : b.index (vbufferIteratorCopy begin) = b.index begin := rfl
    rw [hidx] at hat
    have hcarved : Carved h b (b.offsetOf begin)
        (min (b.offsetOf begin + length) (totalSize b.body)) (b.beginIndex (.sized begin length))
        (b.endIndex (.sized begin length)) h' k.before R T k.last := by
      refine Carved.of_splits hat ?_ ?_ hat' rfl hat.before ?_ hat.itemsBefore ?_
      · rfl
      · exact Nat.le_succ _
      · have hafter := hat'.after
        rw [hcut] at hafter
        have hmem : ({ h1 with next := h1.next + 1 } : Heap).mem = h.mem := hat.mem
        rw [hmem] at hafter
        rw [hafter, ← hat.content, Vbuffer.content, Vbuffer.content, hat.mem]
        rfl
      · have hlen : (itemsOf k.before).length = b.index begin := by
          rw [hat.itemsBefore, length_take, Nat.min_eq_left hat.indexLe]
        have hitems : itemsOf (k.before ++ k.after) = itemsOf b.body := hat.items
        have hafter := hat'.itemsAfter
        rw [hlen, hat.itemsAfter, hitems] at hafter
        exact hafter
    refine ⟨h', k.before, R, T, k.last, h1.next, k.chunk.flags.writable, hcarved,
      .of_splits hat hat', fun hb' => hwr (hat.writable hb'), ?_⟩
    simp only [hloop]
  | @between begin «end» hbegin hend hreach hle =>
    rcases split_cases mark hb hend.copy with ⟨hsplit, hnw⟩ | ⟨h1, k, hsplit, hat⟩
    · left
      simp only [hsplit]
      exact ⟨trivial, hnw⟩
    rw [offsetOf_copy] at hat
    have hbm := mem_ids_of_check hbegin.check
    have hoff : k.toVbuffer.offsetOf (vbufferIteratorCopy begin) = b.offsetOf begin :=
      hat.offsetOf hb hbm
    have hindex : k.toVbuffer.index (vbufferIteratorCopy begin) = b.index begin := hat.index hbm
    rcases split_inside (vbufferIteratorCopy begin) mark hat.wf
      (split_reach hsplit hb.last_size begin.chunk hreach)
      (by rw [hoff, hat.size]; exact hle) with
      ⟨hsplit', hnw⟩ | ⟨h2, A, R, T, e, hsplit', hat', hT, hTi, hR, hTe⟩
    · left
      simp only [hsplit, extractFrom, hsplit']
      exact ⟨trivial, fun hw => hnw fun hm => hat.writable (hw hm)⟩
    right
    rw [hoff, hindex] at hat'
    have hcarved : Carved h b (b.offsetOf begin) (b.offsetOf «end») (b.index begin) (b.index «end»)
        h2 A R T e := by
      refine Carved.of_splits hat rfl (le_refl _) hat' ?_ ?_ ?_ ?_ ?_
      · simp [Cut.toVbuffer]
      · rw [← hat.content, ← hat'.before, hat.mem]
      · rw [← hat.mem, hT, hat.mem, hat.after]
      · rw [hat'.itemsBefore, hat.items]
      · rw [hTi, hat.itemsAfter]
        rfl
    have htake : (R ++ T).takeWhile (fun c => c.id ≠ k.chunk.id) = R := by
      rcases hTe with rfl | ⟨t, T', rfl, ht⟩
      · rw [append_nil, takeWhile_id_absent hR]
      · rw [← ht] at hR ⊢
        exact takeWhile_id hR
    have hdrop : (R ++ T).dropWhile (fun c => c.id ≠ k.chunk.id) = T := by
      rcases hTe with rfl | ⟨t, T', rfl, ht⟩
      · rw [append_nil, dropWhile_id_absent hR]
      · rw [← ht] at hR ⊢
        exact dropWhile_id hR
    refine ⟨{ h2 with next := h2.next + 1 }, A, R, T, e, h2.next, _,
      hcarved.mono rfl (Nat.le_succ _), hcarved.newId,
      fun hb' => hwr (hat'.writable (hat.writable hb')), ?_⟩
    simp only [hsplit]
    rw [extractFrom_between hsplit', htake, hdrop]

theorem extract_spec (ins : Bool) (hb : b.WF h) (hw : mark = true → b.Writable)
    (hc : b.Covers data lo hi) :
    ∃ h' A R T e n w, Carved h b lo hi (b.beginIndex data) (b.endIndex data) h' A R T e ∧
      NewId h h' (A ++ R ++ T ++ [e]) n ∧ (b.Writable → w = true) ∧
      _vbufferExtract h b data mark ins =
        extractDone h' A (R.foldl (Passed.pass ins) ⟨[], [], []⟩) T e ⟨[], endChunk n w⟩ ins :=
  (extract_cases mark ins hb hc).resolve_left fun hn => hn.2 hw

/-! ## Any sub -/

theorem split_at_some (hb : b.WF h) (heq : _vbufferIteratorSplit h b pos mark = (h', some k)) :
    ∃ p i, SplitAt h b p i h' k := by
  obtain ⟨rfl, -, rfl, -⟩ | ⟨P, iter, rest, off, -, hbody, ho, -, rfl, rfl⟩ := split_inv heq
  · exact ⟨_, _, splitAt_end mark hb⟩
  · have hmem : iter ∈ b.all := by simp [Vbuffer.all, hbody]
    have hs := splitChunk_spec ((hb.valid iter hmem).markIf mark)
      (by simpa using hb.fresh iter hmem) (by simpa using ho)
    exact ⟨_, _, splitAt_of_isSplit mark hb hbody ho hs⟩

theorem Carved.exists_of_splits {h2 : Heap} {q x y : ℕ}
    (h1at : SplitAt h b p x h1 k) (hmem : h2.mem = h1.mem) (hnext : h1.next ≤ h2.next)
    (h2at : SplitAt h2 k.toVbuffer q y h' k') (hk' : k'.toVbuffer = ⟨A ++ R ++ T, e⟩) :
    ∃ lo hi i j, lo ≤ hi ∧ Carved h b lo hi i j h' A R T e := by
  have hcontent : b.content h = bytesOf h.mem (A ++ R) ++ bytesOf h.mem T := by
    rw [← h1at.content, Vbuffer.content, ← hmem, ← Vbuffer.content, ← h2at.content, hk',
      Vbuffer.content, h2at.mem, hmem, h1at.mem, bytesOf_append]
  have hitems : itemsOf b.body = itemsOf (A ++ R) ++ itemsOf T := by
    rw [← h1at.items, ← h2at.items, hk', itemsOf_append]
  refine ⟨(bytesOf h.mem A).length, (bytesOf h.mem (A ++ R)).length, (itemsOf A).length,
    (itemsOf (A ++ R)).length, by simp, .of_splits h1at hmem hnext h2at hk' ?_ ?_ ?_ ?_⟩
  · rw [hcontent, bytesOf_append, append_assoc, take_left]
  · rw [hcontent, drop_left]
  · rw [hitems, itemsOf_append, append_assoc, take_left]
  · rw [hitems, drop_left]

/-- **Extraction of any range.** Whatever the sub, an extraction that succeeds carves the buffer and
sorts the chunks of the range in one pass. -/
theorem extract_carved {ins : Bool} (hb : b.WF h)
    (hsome : (_vbufferExtract h b data mark ins).extracted ≠ none) :
    ∃ lo hi i j h' A R T e n w, lo ≤ hi ∧ Carved h b lo hi i j h' A R T e ∧
      NewId h h' (A ++ R ++ T ++ [e]) n ∧
      _vbufferExtract h b data mark ins =
        extractDone h' A (R.foldl (Passed.pass ins) ⟨[], [], []⟩) T e ⟨[], endChunk n w⟩ ins := by
  unfold _vbufferExtract at hsome ⊢
  split at hsome
  case isFalse => exact absurd rfl hsome
  case isTrue hcheck =>
  rw [if_pos hcheck]
  cases data with
  | sized begin length =>
    unfold extractFrom at hsome ⊢
    rcases hsplit : _vbufferIteratorSplit h b (vbufferIteratorCopy begin) mark with ⟨h1, _ | k⟩
    · simp [hsplit] at hsome
    obtain ⟨p, x, hat⟩ := split_at_some hb hsplit
    have hwf : (Vbuffer.mk (k.before ++ k.after) k.last).WF { h1 with next := h1.next + 1 } :=
      hat.wf.mono rfl (Nat.le_succ _)
    simp only [hsplit, _vbufferInit, vbufferChunkCreateEnd, Option.isSome_some, Bool.true_or,
      if_true] at hsome ⊢
    rcases extractLoop_sized 0 length mark ins ⟨[], [], []⟩ hwf with
      ⟨h', s', T, hloop, -⟩ | ⟨h', R, T, hloop, hat'⟩
    · simp [hloop] at hsome
    obtain ⟨lo, hi, i, j, hle, hcarved⟩ :=
      Carved.exists_of_splits hat
        (show ({ h1 with next := h1.next + 1 } : Heap).mem = h1.mem from rfl) (Nat.le_succ _) hat' rfl
    refine ⟨lo, hi, i, j, h', k.before, R, T, k.last, h1.next, k.chunk.flags.writable, hle, hcarved,
      .of_splits hat hat', ?_⟩
    simp only [hloop]
  | between begin «end» =>
    rcases hsplit : _vbufferIteratorSplit h b (vbufferIteratorCopy «end») mark with ⟨h1, _ | k⟩
    · simp [hsplit] at hsome
    obtain ⟨p, x, hat⟩ := split_at_some hb hsplit
    simp only [hsplit] at hsome ⊢
    rcases hsplit' : _vbufferIteratorSplit h1 k.toVbuffer (vbufferIteratorCopy begin) mark with
      ⟨h2, _ | k'⟩
    · simp [extractFrom, hsplit'] at hsome
    obtain ⟨q, y, hat'⟩ := split_at_some hat.wf hsplit'
    obtain ⟨lo, hi, i, j, hle, hcarved⟩ :=
      Carved.exists_of_splits
        (T := k'.after.dropWhile fun c => c.id ≠ k.chunk.id) hat rfl le_rfl hat'
        (by rw [append_assoc, takeWhile_append_dropWhile]; rfl)
    exact ⟨lo, hi, i, j, { h2 with next := h2.next + 1 }, _, _, _, _, h2.next, _, hle,
      hcarved.mono rfl (Nat.le_succ _), hcarved.newId, extractFrom_between hsplit'⟩

end Haka
