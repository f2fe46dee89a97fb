import Haka.Vbuffer.Refine

/-!
# Selection and restoration

`vbuffer_select` cuts a range out of a buffer and leaves a select node in its place;
`vbuffer_restore` puts a buffer, or a clone of it, where the node stands. Together they form a lens
on the range (`select_spec`, `restore_spec`), and lenses nest: a packet selects the payload of the
packet below it, and the payloads are restored from the inside out (`nest_spec`).
-/

namespace Haka

open List

/-! ## One selection -/

/-- What `vbuffer_select` leaves of the range from `lo` to `hi`: the source `A ++ ctl :: T` and the
selected buffer. -/
structure Selected (h : Heap) (b : Vbuffer) (lo hi : ℕ) (h' : Heap) (A : List Chunk) (ctl : Chunk)
    (T : List Chunk) (e : Chunk) (sel : Vbuffer) : Prop where
  mem : h'.mem = h.mem
  next : h.next ≤ h'.next
  srcWf : (Vbuffer.mk (A ++ ctl :: T) e).WF h'
  selWf : sel.WF h'
  apart : (Vbuffer.mk (A ++ ctl :: T) e).Apart sel
  isSelect : ctl.data.isSelect = true
  isCtl : ctl.flags.ctl = true
  before : bytesOf h.mem A = (b.content h).take lo
  range : bytesOf h.mem sel.body = ((b.content h).take hi).drop lo
  after : bytesOf h.mem T = (b.content h).drop hi
  ctls : ctlsOf A ++ sel.ctls ++ ctlsOf T = b.ctls
  srcNews : ∀ i ∈ idsOf (A ++ ctl :: T ++ [e]), i ∈ idsOf b.all ∨ h.next ≤ i
  selNews : ∀ i ∈ idsOf sel.all, i ∈ idsOf b.all ∨ h.next ≤ i

variable {h h' : Heap} {e : Chunk} {b x : Vbuffer} {lo hi : ℕ} {A T l : List Chunk}

theorem Vbuffer.WF.insertCtl {P Q : List Chunk} {c : Chunk} (hb : (Vbuffer.mk (P ++ Q) e).WF h)
    (hmem : h'.mem = h.mem) (hnext : h.next ≤ h'.next) (hc : h.next ≤ c.id) (hlt : c.id < h'.next)
    (hv : c.Valid h.mem) :
    (Vbuffer.mk (P ++ c :: Q) e).WF h' := by
  have hb' : (Vbuffer.mk (P ++ [] ++ Q) e).WF h := by simpa using hb
  have hw : (Vbuffer.mk (P ++ [c] ++ Q) e).WF h' := by
    refine hb'.replace hmem hnext (by simp) (fun i hi => .inr ⟨fun hm => ?_, ?_⟩)
      (by simpa using hv) rfl (hb.valid e (by simp)) hb.lastCtl
    · obtain ⟨x, hx, hxi⟩ := (mem_idsOf _).1 hm
      have := hb'.fresh x hx
      simp only [idsOf_cons, idsOf_nil, mem_singleton] at hi
      omega
    · simp only [idsOf_cons, idsOf_nil, mem_singleton] at hi
      omega
  simpa using hw

variable {h1 : Heap} {data : Sub}

/-- A selection whose extraction carves the buffer leaves a node in place of the range. -/
theorem select_of_carved {i j n : ℕ} {R : List Chunk} {w : Bool}
    (hcarved : Carved h b lo hi i j h1 A R T e) (hn : NewId h h1 (A ++ R ++ T ++ [e]) n)
    (heq : _vbufferExtract h b data false true =
      extractDone h1 A (R.foldl (Passed.pass true) ⟨[], [], []⟩) T e ⟨[], endChunk n w⟩ true) :
    ∃ h' ctl sel, vbufferSelect h b data =
        (h', ⟨A ++ ctl :: T, e⟩, some (sel, ⟨ctl.id, 0, 0, false⟩)) ∧
      Selected h b lo hi h' A ctl T e sel ∧ sel.body = R := by
  rw [Passed.foldl_select, nil_append] at heq
  let ctl : Chunk :=
    { id := h1.next + 1, flags := ⟨false, false, (Cut.mk A T e).chunk.flags.writable, true⟩,
      data := .select h1.next, offset := 0, size := 0 }
  have hctl : ctl.Valid h1.mem := ⟨by simp [ctl, Chunk.bytes], fun _ => rfl⟩
  have hAT : (Vbuffer.mk (A ++ T) e).WF h1 := by
    refine hcarved.wf.of_sublist ?_
    rw [append_assoc]
    exact List.Sublist.append_left (sublist_append_right _ _) _
  have hR : (Vbuffer.mk R e).WF h1 := by
    refine hcarved.wf.of_sublist ?_
    exact (sublist_append_right _ _).trans (sublist_append_left _ _)
  have hAll : ∀ i, i ∈ idsOf (A ++ R ++ T ++ [e]) → i < h1.next := by
    intro i hi
    obtain ⟨x, hx, rfl⟩ := (mem_idsOf _).1 hi
    exact hcarved.wf.fresh x hx
  have hnd := hcarved.wf.nodup
  refine ⟨⟨h1.next + 2, h1.mem⟩, ctl, ⟨R, endChunk n w⟩, ?_, ?_, rfl⟩
  · unfold vbufferSelect
    rw [heq]
    simp [extractDone, vbufferChunkInsertCtl, Cut.insert, Cut.chunk, ctl]
  have hn1 := hn.upper
  refine ⟨hcarved.mem, ?_, ?_, ?_, ?_, rfl, rfl, hcarved.before, hcarved.range, hcarved.after, ?_,
    ?_, ?_⟩
  · have := hcarved.next
    simp only
    omega
  · exact hAT.insertCtl rfl (by simp) (by simp [ctl]) (by simp [ctl]) hctl
  · have hR' : (Vbuffer.mk R e).WF ⟨h1.next + 2, h1.mem⟩ := hR.mono rfl (by simp)
    refine hR'.of_last ?_ (show n < h1.next + 2 by omega)
      ⟨by simp [Chunk.bytes, endChunk], fun _ => rfl⟩ rfl
    intro hm
    apply hn.notMem
    obtain ⟨x, hx, hxi⟩ := (mem_idsOf _).1 hm
    exact (mem_idsOf _).2 ⟨x, by simp [hx], hxi⟩
  · intro i hi hsrc
    simp only [Vbuffer.all_mk, idsOf_append, idsOf_cons, idsOf_nil, mem_append, mem_cons,
      append_assoc, not_mem_nil, or_false] at hi hsrc hnd
    rw [nodup_append] at hnd
    obtain ⟨-, hnd2, hAR⟩ := hnd
    rw [nodup_append] at hnd2
    obtain ⟨-, -, hRT⟩ := hnd2
    rcases hi with hi | hi
    · have hlt := hAll i (by simp [hi])
      rcases hsrc with hs | (hs | hs) | hs
      · exact hAR i hs i (by simp [hi]) rfl
      · have : ctl.id = h1.next + 1 := rfl
        omega
      · exact hRT i hi i (by simp [hs]) rfl
      · exact hRT i hi i (by simp [hs]) rfl
    · have hin : i = n := hi
      rcases hsrc with hs | (hs | hs) | hs
      · exact hn.notMem (by simp [← hin, hs])
      · have : ctl.id = h1.next + 1 := rfl
        omega
      · exact hn.notMem (by simp [← hin, hs])
      · exact hn.notMem (by simp [← hin, hs])
  · unfold Vbuffer.ctls
    rw [ctlsOf_eq_items b.body, ← hcarved.items, filterMap_append, filterMap_append,
      ← ctlsOf_eq_items, ← ctlsOf_eq_items, ← ctlsOf_eq_items]
  · intro i hi
    simp only [idsOf_append, idsOf_cons, idsOf_nil, mem_append, mem_cons,
      append_assoc, not_mem_nil, or_false] at hi
    rcases hi with hi | (hi | hi) | hi
    · exact hcarved.news i (by simp [hi])
    · right
      have hnext := hcarved.next
      have h2 : ctl.id = h1.next + 1 := rfl
      omega
    · exact hcarved.news i (by simp [hi])
    · exact hcarved.news i (by simp [hi])
  · intro i hi
    simp only [Vbuffer.all_mk, idsOf_append, idsOf_cons, idsOf_nil, mem_append, mem_singleton] at hi
    rcases hi with hi | hi
    · exact hcarved.news i (by simp [hi])
    · right
      have := hn.lower
      have hin : i = n := hi
      omega

theorem select_spec (hb : b.WF h) (hc : b.Covers data lo hi) :
    ∃ h' A ctl T e sel, vbufferSelect h b data =
        (h', ⟨A ++ ctl :: T, e⟩, some (sel, ⟨ctl.id, 0, 0, false⟩)) ∧
      Selected h b lo hi h' A ctl T e sel := by
  obtain ⟨h1, A, R, T, e, n, w, hcarved, hn, -, heq⟩ :=
    extract_spec true hb (fun hm : false = true => absurd hm (by simp)) hc
  obtain ⟨h', ctl, sel, hsel, hs, -⟩ := select_of_carved hcarved hn heq
  exact ⟨h', A, ctl, T, e, sel, hsel, hs⟩

/-! ## The chunks put back -/

theorem subIterateBetween_all {endId : ℕ} (hl : endId ∉ idsOf l) :
    subIterateBetween endId 0 l 0 = l.map fun c => (c, 0, c.size) := by
  induction l with
  | nil => rfl
  | cons c l ih =>
    simp only [idsOf_cons, mem_cons, not_or] at hl
    rw [subIterateBetween, if_neg (Ne.symm hl.1), ih hl.2]
    rfl

theorem subIterate_whole (hx : x.WF h) :
    _vbufferSubIterate x (vbufferSubCreateBetweenPosition (vbufferPosition x 0 (some 0))
      (vbufferPosition x 0 none)) = x.body.map fun c => (c, 0, c.size) := by
  obtain ⟨-, -, hbegin⟩ := inRange_of_cut
    ⟨(Cut.mk [] x.body x.last).chunk.id, 0, 0, false⟩ hx rfl rfl (Nat.zero_le _)
  obtain ⟨-, -, hend⟩ := inRange_of_cut (P := x.body) (Q := []) ⟨x.last.id, 0, 0, false⟩ hx
    (by simp) rfl (Nat.zero_le _)
  have hb : vbufferIteratorCopy (vbufferPosition x 0 (some 0)) =
      ⟨(Cut.mk [] x.body x.last).chunk.id, 0, 0, false⟩ := rfl
  have he : vbufferIteratorCopy (vbufferPosition x 0 none) = ⟨x.last.id, 0, 0, false⟩ := rfl
  rw [vbufferSubCreateBetweenPosition, hb, he, _vbufferSubIterate, hbegin, hend]
  exact subIterateBetween_all hx.last_notMem

/-- Clones hold the bytes of the chunks they were made of, at new addresses. -/
structure Clones (h : Heap) (l : List Chunk) (h' : Heap) (l' : List Chunk) : Prop where
  mem : h'.mem = h.mem
  next : h.next ≤ h'.next
  bytes : ∀ m, bytesOf m l' = bytesOf m l
  ids : ∀ i ∈ idsOf l', h.next ≤ i ∧ i < h'.next
  nodup : (idsOf l').Nodup
  valid : (∀ c ∈ l, c.Valid h.mem) → ∀ c ∈ l', c.Valid h.mem
  ctl : (∀ c ∈ l, c.flags.ctl = false) → ∀ c ∈ l', c.flags.ctl = false

theorem cloneChunks_spec (mode : CloneMode) (h : Heap) (l : List Chunk) :
    Clones h l (cloneChunks mode h l).1 (cloneChunks mode h l).2 := by
  induction l generalizing h with
  | nil => exact ⟨rfl, le_refl _, fun _ => rfl, by simp [cloneChunks], by simp [cloneChunks],
      fun _ => by simp [cloneChunks], fun _ => by simp [cloneChunks]⟩
  | cons c l ih =>
    have ih := ih { h with next := h.next + 1 }
    obtain ⟨d, hd, hid, hbytes, hsize, hctl⟩ : ∃ d, (cloneChunks mode h (c :: l)).2 =
        d :: (cloneChunks mode { h with next := h.next + 1 } l).2 ∧ d.id = h.next ∧
        (∀ m, d.bytes m = c.bytes m) ∧ d.size = c.size ∧ d.flags.ctl = c.flags.ctl := by
      refine ⟨if mode = .roClone then { c with id := h.next }.setWritable false
        else { c with id := h.next }, rfl, ?_⟩
      split_ifs <;> exact ⟨rfl, fun _ => rfl, rfl, rfl⟩
    have hheap : (cloneChunks mode h (c :: l)).1 =
      (cloneChunks mode { h with next := h.next + 1 } l).1 := rfl
    have hnext := ih.next
    simp only at hnext
    rw [hd, hheap]
    refine ⟨ih.mem, by omega, fun m => ?_, fun i hi => ?_, ?_, fun hv x hx => ?_, fun hv x hx => ?_⟩
    · rw [bytesOf_cons, bytesOf_cons, hbytes, ih.bytes]
    · rw [idsOf_cons, mem_cons] at hi
      rcases hi with rfl | hi
      · rw [hid]
        omega
      · have := ih.ids i hi
        simp only at this
        omega
    · rw [idsOf_cons, nodup_cons]
      refine ⟨fun hm => ?_, ih.nodup⟩
      have := ih.ids _ hm
      simp only [hid] at this
      omega
    · rcases mem_cons.1 hx with rfl | hx
      · have hc := hv c (by simp)
        exact ⟨by rw [hbytes, hsize]; exact hc.inBlock, fun hx => by
          rw [hsize]; exact hc.ctlSize (by rw [← hctl]; exact hx)⟩
      · exact ih.valid (fun y hy => hv y (by simp [hy])) x hx
    · rcases mem_cons.1 hx with rfl | hx
      · rw [hctl]
        exact hv c (by simp)
      · exact ih.ctl (fun y hy => hv y (by simp [hy])) x hx

theorem bytesOf_filter_data {m : ℕ → List UInt8} (hl : ∀ c ∈ l, c.Valid m) :
    bytesOf m (l.filter fun c => !c.flags.ctl) = bytesOf m l := by
  induction l with
  | nil => rfl
  | cons c l ih =>
    have ih := ih fun d hd => hl d (by simp [hd])
    cases hc : c.flags.ctl with
    | true => simp [hc, ih, (hl c (by simp)).bytes_of_ctl hc]
    | false => simp [hc, ih]

theorem ctlsOf_eq_nil (hl : ∀ c ∈ l, c.flags.ctl = false) : ctlsOf l = [] := by
  unfold ctlsOf
  rw [filter_eq_nil_iff.2 fun c hc => by simp [hl c hc], map_nil]

/-- What `vbuffer_restore` inserts for a buffer `x`: its chunks, or clones of its data chunks. -/
structure Inserted (h : Heap) (x : Vbuffer) (clone : Bool) (h' : Heap) (X : List Chunk) : Prop where
  mem : h'.mem = h.mem
  next : h.next ≤ h'.next
  bytes : bytesOf h.mem X = x.content h
  nodup : (idsOf X).Nodup
  ids : ∀ i ∈ idsOf X, (i ∈ idsOf x.all ∨ h.next ≤ i) ∧ i < h'.next
  valid : ∀ c ∈ X, c.Valid h.mem
  ctls : ctlsOf X = if clone then [] else x.ctls

theorem restoredChunks_clone (hx : x.WF h) :
    ((restoredChunks h x true).1, (restoredChunks h x true).2.1) =
      cloneChunks .roOrig { h with next := h.next + 1 } (x.body.filter fun c => !c.flags.ctl) := by
  obtain ⟨hin, -⟩ := position_spec 0 0 hx
  obtain ⟨hin', -, -⟩ := position_end 0 hx
  have hcheck : _vbufferSubCheck x (vbufferSubCreateBetweenPosition (vbufferPosition x 0 (some 0))
      (vbufferPosition x 0 none)) = true := by
    rw [vbufferSubCreateBetweenPosition, _vbufferSubCheck, hin.copy.check, hin'.copy.check]
    rfl
  have hfst : (x.body.map fun c => (c, 0, c.size)).map Prod.fst = x.body := by
    rw [map_map]
    exact map_id _
  unfold restoredChunks vbufferSubClone
  simp only [hcheck, if_true, subIterate_whole hx, hfst, _vbufferInit, vbufferChunkCreateEnd]

theorem restoredChunks_spec (clone : Bool) (hx : x.WF h) :
    Inserted h x clone (restoredChunks h x clone).1 (restoredChunks h x clone).2.1 := by
  cases clone with
  | false =>
    refine ⟨rfl, le_refl _, rfl, hx.nodup_body, fun i hi => ⟨.inl ?_, ?_⟩, hx.valid_body, rfl⟩
    · have hi : i ∈ idsOf x.body := hi
      simp [Vbuffer.all, hi]
    · obtain ⟨c, hc, rfl⟩ := (mem_idsOf _).1 hi
      exact hx.fresh c (mem_append_left _ hc)
  | true =>
    have hcl := cloneChunks_spec .roOrig { h with next := h.next + 1 }
      (x.body.filter fun c => !c.flags.ctl)
    have hdata : ∀ c ∈ x.body.filter (fun c => !c.flags.ctl), c.flags.ctl = false := by
      intro c hc
      simpa using (mem_filter.1 hc).2
    rw [← restoredChunks_clone hx] at hcl
    have hnext := hcl.next
    dsimp only at hcl hnext
    refine ⟨hcl.mem, by omega, ?_, hcl.nodup, fun i hi => ?_, ?_, ?_⟩
    · exact (hcl.bytes h.mem).trans (bytesOf_filter_data hx.valid_body)
    · have hcli := hcl.ids i hi
      dsimp only at hcli
      exact ⟨.inr (by omega), hcli.2⟩
    · exact hcl.valid fun c hc => hx.valid_body c (mem_filter.1 hc).1
    · exact ctlsOf_eq_nil (hcl.ctl hdata)

/-! ## One restoration -/

/-- The buffer after `vbuffer_restore` of `x` at the node between `A` and `T`. -/
structure Restored (h : Heap) (src : Vbuffer) (A T : List Chunk) (x : Vbuffer) (clone : Bool)
    (h' : Heap) (b : Vbuffer) : Prop where
  mem : h'.mem = h.mem
  next : h.next ≤ h'.next
  wf : b.WF h'
  content : b.content h' = bytesOf h.mem A ++ x.content h ++ bytesOf h.mem T
  ctls : b.ctls = ctlsOf A ++ (if clone then [] else x.ctls) ++ ctlsOf T
  news : ∀ i ∈ idsOf b.all, i ∈ idsOf src.all ∨ i ∈ idsOf x.all ∨ h.next ≤ i

variable {ctl : Chunk}

theorem Inserted.wf {X : List Chunk} {clone : Bool} (hins : Inserted h x clone h' X)
    (hs : (Vbuffer.mk (A ++ ctl :: T) e).WF h) (ha : (Vbuffer.mk (A ++ ctl :: T) e).Apart x) : (Vbuffer.mk (A ++ X ++ T) e).WF h' := by
  have hb' : (Vbuffer.mk (A ++ [] ++ T) e).WF h := by
    rw [append_nil]
    exact hs.of_sublist (List.Sublist.append_left (sublist_cons_self _ _) _)
  refine hb'.replace hins.mem hins.next hins.nodup (fun i hi => .inr ⟨fun hm => ?_, (hins.ids i hi).2⟩)
    hins.valid rfl (hs.valid e (by simp)) hs.lastCtl
  rcases (hins.ids i hi).1 with h1 | h1
  · apply ha i h1
    simp only [append_nil, Vbuffer.all_mk, idsOf_append, idsOf_cons, mem_append, mem_cons] at hm ⊢
    tauto
  · obtain ⟨c, hc, rfl⟩ := (mem_idsOf _).1 hm
    have := hb'.fresh c hc
    omega

theorem restore_spec (clone : Bool) (hs : (Vbuffer.mk (A ++ ctl :: T) e).WF h)
    (hctl : ctl.data.isSelect = true) (hx : x.WF h) (ha : (Vbuffer.mk (A ++ ctl :: T) e).Apart x) :
    ∃ h' b d, vbufferRestore h ⟨A ++ ctl :: T, e⟩ ⟨ctl.id, 0, 0, false⟩ (some x) clone =
        (h', b, some d, true) ∧ Restored h ⟨A ++ ctl :: T, e⟩ A T x clone h' b := by
  have hins := restoredChunks_spec clone hx
  obtain ⟨hin, -, -⟩ := inRange_of_cut ⟨ctl.id, 0, 0, false⟩ hs rfl rfl
    (Nat.zero_le _)
  have hseek : (Vbuffer.mk (A ++ ctl :: T) e).seek ctl.id = ⟨A, ctl :: T, e⟩ := by
    apply Vbuffer.seek_mk
    intro hm
    have hnd := hs.nodup_body
    rw [idsOf_append, nodup_append] at hnd
    exact hnd.2.2 _ hm _ (by simp) rfl
  generalize hX : restoredChunks h x clone = r at hins
  obtain ⟨h', X, d⟩ := r
  have hwf : (Vbuffer.mk (A ++ X ++ T) e).WF h' := hins.wf hs ha
  have hre := remarks_orModified ctl
  refine ⟨h', (vbufferChunkRemoveCtl (A ++ X) ctl T e).toVbuffer, d, ?_, hins.mem, hins.next, ?_, ?_,
    ?_, ?_⟩
  · unfold vbufferRestore
    rw [if_pos hin.check]
    simp only [hseek, hctl, if_true, hX]
  · exact Cut.mapChunk_wf hre hwf
  · unfold Vbuffer.content vbufferChunkRemoveCtl Cut.toVbuffer
    rw [bytesOf_append, Cut.mapChunk_before, Cut.mapChunk_bytes _ hre, hins.mem, bytesOf_append,
      hins.bytes]
    rfl
  · unfold Vbuffer.ctls vbufferChunkRemoveCtl Cut.toVbuffer
    rw [ctlsOf_append, Cut.mapChunk_before, Cut.mapChunk_ctls hre, ctlsOf_append, hins.ctls]
    rfl
  · intro i hi
    rw [vbufferChunkRemoveCtl, Cut.mapChunk_ids hre] at hi
    simp only [Cut.toVbuffer, Vbuffer.all_mk, idsOf_append, idsOf_cons, idsOf_nil, mem_append,
      mem_cons] at hi ⊢
    rcases hi with ((hi | hi) | hi) | hi
    · tauto
    · exact .inr (hins.ids i hi).1
    · tauto
    · tauto

/-! ## Nested selections -/

/-- Selects each sub in the buffer the one before it selected: the sources with their references,
from the outside in, and the innermost buffer. -/
def selectAll : Heap → Vbuffer → List Sub → Option (Heap × List (Vbuffer × Iterator) × Vbuffer)
  | h, b, [] => some (h, [], b)
  | h, b, data :: rest =>
    match vbufferSelect h b data with
    | (_, _, none) => none
    | (h, src, some (sel, ref)) =>
      (selectAll h sel rest).map fun r => (r.1, (src, ref) :: r.2.1, r.2.2)

/-- Restores `x` in the innermost source, the result in the next one, and so on. -/
def restoreAll (clone : Bool) : Heap → List (Vbuffer × Iterator) → Vbuffer → Option (Heap × Vbuffer)
  | h, [], x => some (h, x)
  | h, (src, ref) :: stack, x =>
    match restoreAll clone h stack x with
    | none => none
    | some (h, y) =>
      match vbufferRestore h src ref (some y) clone with
      | (h, b, _, true) => some (h, b)
      | (_, _, _, false) => none

/-- Each sub is well formed in the buffer it is selected in, and covers the given range of it. -/
def NestCovers : Heap → Vbuffer → List Sub → List (ℕ × ℕ) → Prop
  | _, _, [], [] => True
  | h, b, data :: subs, (lo, hi) :: ranges =>
    b.Covers data lo hi ∧ ∀ h' src sel ref, vbufferSelect h b data = (h', src, some (sel, ref)) →
      NestCovers h' sel subs ranges
  | _, _, _, _ => False

def innerBytes (c : List UInt8) : List (ℕ × ℕ) → List UInt8
  | [] => c
  | (lo, hi) :: ranges => innerBytes ((c.take hi).drop lo) ranges

/-- The bytes `x` put at the bottom of nested ranges. -/
def spliceBytes (c : List UInt8) : List (ℕ × ℕ) → List UInt8 → List UInt8
  | [], x => x
  | (lo, hi) :: ranges, x => c.take lo ++ spliceBytes ((c.take hi).drop lo) ranges x ++ c.drop hi

/-- A later heap in which the chunks of a list still hold their bytes. -/
structure Heap.Keeps (h h' : Heap) (l : List Chunk) : Prop where
  next : h.next ≤ h'.next
  bytes : ∀ c ∈ l, c.bytes h'.mem = c.bytes h.mem

instance (h h' : Heap) (l : List Chunk) : Decidable (h.Keeps h' l) :=
  decidable_of_iff (h.next ≤ h'.next ∧ ∀ c ∈ l, c.bytes h'.mem = c.bytes h.mem)
    ⟨fun hk => ⟨hk.1, hk.2⟩, fun hk => ⟨hk.next, hk.bytes⟩⟩

theorem Vbuffer.WF.keeps (hb : b.WF h) (hk : h.Keeps h' b.all) : b.WF h' :=
  ⟨hb.nodup, fun c hc => lt_of_lt_of_le (hb.fresh c hc) hk.next,
    fun c hc => ⟨by rw [hk.bytes c hc]; exact (hb.valid c hc).inBlock, (hb.valid c hc).ctlSize⟩,
    hb.lastCtl⟩

theorem bytesOf_keeps {l' : List Chunk} (hk : h.Keeps h' l') (hl : ∀ c ∈ l, c ∈ l') :
    bytesOf h'.mem l = bytesOf h.mem l := by
  exact flatMap_congr fun c hc => hk.bytes c (hl c hc)

/-- A nest of selections, and what restoring a buffer at its bottom gives. -/
structure Nested (h : Heap) (b : Vbuffer) (ranges : List (ℕ × ℕ)) (h' : Heap)
    (stack : List (Vbuffer × Iterator)) (inner : Vbuffer) : Prop where
  mem : h'.mem = h.mem
  next : h.next ≤ h'.next
  innerWf : inner.WF h'
  innerContent : inner.content h' = innerBytes (b.content h) ranges
  whole : spliceBytes (b.content h) ranges (innerBytes (b.content h) ranges) = b.content h
  stackNews : ∀ s ∈ stack, ∀ i ∈ idsOf s.1.all, (i ∈ idsOf b.all ∨ h.next ≤ i) ∧ i < h'.next
  innerNews : ∀ i ∈ idsOf inner.all, i ∈ idsOf b.all ∨ h.next ≤ i
  apart : ∀ s ∈ stack, s.1.Apart inner
  restore : ∀ clone h'' x, (∀ s ∈ stack, h'.Keeps h'' s.1.all) → h'.next ≤ h''.next → x.WF h'' →
    (∀ s ∈ stack, s.1.Apart x) → ∃ h₃ b', restoreAll clone h'' stack x = some (h₃, b') ∧
      h₃.mem = h''.mem ∧ h''.next ≤ h₃.next ∧ b'.WF h₃ ∧
      b'.content h₃ = spliceBytes (b.content h) ranges (x.content h'') ∧
      (clone = false → x.ctls = inner.ctls → b'.ctls = b.ctls) ∧
      ∀ i ∈ idsOf b'.all, (∃ s ∈ stack, i ∈ idsOf s.1.all) ∨ i ∈ idsOf x.all ∨ h''.next ≤ i

theorem take_range_drop {α : Type*} (c : List α) (hle : lo ≤ hi) :
    c.take lo ++ (c.take hi).drop lo ++ c.drop hi = c := by
  have htake : c.take lo = (c.take hi).take lo := by rw [take_take, Nat.min_eq_left hle]
  rw [htake, take_append_drop, take_append_drop]

variable {ranges : List (ℕ × ℕ)}

/-- Around a selection: the nest of the selected buffer gives that of the buffer. -/
theorem Nested.cons {sel inner : Vbuffer}
    {stack : List (Vbuffer × Iterator)} (hsel : Selected h b lo hi h1 A ctl T e sel)
    (hlohi : lo ≤ hi) (hn : Nested h1 sel ranges h' stack inner) :
    Nested h b ((lo, hi) :: ranges) h'
      ((⟨A ++ ctl :: T, e⟩, ⟨ctl.id, 0, 0, false⟩) :: stack) inner := by
  have hselc : sel.content h1 = ((b.content h).take hi).drop lo := by
    rw [← hsel.range, ← hsel.mem]
    rfl
  have hsrclt : ∀ i ∈ idsOf (A ++ ctl :: T ++ [e]), i < h1.next := by
    intro i hi
    obtain ⟨c, hc, rfl⟩ := (mem_idsOf _).1 hi
    exact hsel.srcWf.fresh c hc
  -- addresses found below the selection are not those of its source
  have hbelow : ∀ i, i ∈ idsOf sel.all ∨ h1.next ≤ i → i ∉ idsOf (A ++ ctl :: T ++ [e]) := by
    rintro i (hi | hi) hm
    · exact hsel.apart i hi hm
    · have := hsrclt i hm
      omega
  have hup : ∀ i, i ∈ idsOf sel.all ∨ h1.next ≤ i → i ∈ idsOf b.all ∨ h.next ≤ i := by
    rintro i (hi | hi)
    · exact hsel.selNews i hi
    · exact .inr (hsel.next.trans hi)
  refine ⟨hn.mem.trans hsel.mem, hsel.next.trans hn.next, hn.innerWf, ?_, ?_, ?_, ?_, ?_, ?_⟩
  · rw [hn.innerContent, hselc]
    rfl
  · have hwhole := hn.whole
    rw [hselc] at hwhole
    rw [innerBytes, spliceBytes, hwhole, take_range_drop _ hlohi]
  · intro s hs i hi
    rcases mem_cons.1 hs with rfl | hs
    · exact ⟨hsel.srcNews i hi, lt_of_lt_of_le (hsrclt i hi) hn.next⟩
    · exact ⟨hup i (hn.stackNews s hs i hi).1, (hn.stackNews s hs i hi).2⟩
  · exact fun i hi => hup i (hn.innerNews i hi)
  · intro s hs
    rcases mem_cons.1 hs with rfl | hs
    · exact fun i hi => hbelow i (hn.innerNews i hi)
    · exact hn.apart s hs
  · intro clone h'' x hkeeps hnext hx hapart
    obtain ⟨h₂, y, hrest, hmem, hle, hy, hycont, hyctls, hynews⟩ := hn.restore clone h'' x
      (fun s hs => hkeeps s (by simp [hs])) hnext hx fun s hs => hapart s (by simp [hs])
    have hsrc : (Vbuffer.mk (A ++ ctl :: T) e).WF h₂ :=
      ((hsel.srcWf.mono hn.mem hn.next).keeps (hkeeps _ (mem_cons_self ..))).mono hmem hle
    have hya : (Vbuffer.mk (A ++ ctl :: T) e).Apart y := by
      intro i hi hm
      rcases hynews i hi with ⟨s, hs, his⟩ | hix | hge
      · exact hbelow i (hn.stackNews s hs i his).1 hm
      · exact hapart _ (mem_cons_self ..) i hix hm
      · have h1 := hsrclt i hm
        have h2 := hn.next
        omega
    obtain ⟨h3, b', d, hres, hr⟩ := restore_spec clone hsrc hsel.isSelect hy hya
    have hbytes : ∀ l, (∀ c ∈ l, c ∈ A ++ ctl :: T) → bytesOf h₂.mem l = bytesOf h.mem l := by
      intro l hl
      rw [hmem, bytesOf_keeps (hkeeps _ (mem_cons_self ..))
        (fun c hc => mem_append_left _ (hl c hc)), hn.mem, hsel.mem]
    refine ⟨h3, b', ?_, hr.mem.trans hmem, hle.trans hr.next, hr.wf, ?_, ?_, ?_⟩
    · simp only [restoreAll, hrest, hres]
    · rw [hr.content, hycont, hselc, hbytes A (fun c hc => by simp [hc]),
        hbytes T (fun c hc => by simp [hc]), hsel.before, hsel.after]
      rfl
    · rintro rfl hxc
      rw [hr.ctls, hyctls rfl hxc, ← hsel.ctls]
      simp
    · intro i hi
      rcases hr.news i hi with hi | hi | hi
      · exact .inl ⟨_, mem_cons_self .., hi⟩
      · rcases hynews i hi with ⟨s, hs, his⟩ | hix | hge
        · exact .inl ⟨s, by simp [hs], his⟩
        · exact .inr (.inl hix)
        · exact .inr (.inr hge)
      · exact .inr (.inr (hle.trans hi))

theorem nest_spec {subs : List Sub} (hb : b.WF h) (hc : NestCovers h b subs ranges) :
    ∃ h' stack inner, selectAll h b subs = some (h', stack, inner) ∧
      Nested h b ranges h' stack inner := by
  induction subs generalizing h b ranges with
  | nil =>
    cases ranges with
    | cons r ranges => exact absurd hc (by simp [NestCovers])
    | nil =>
      refine ⟨h, [], b, rfl, rfl, le_refl _, hb, rfl, rfl, by simp, fun i hi => .inl hi, by simp, ?_⟩
      intro clone h'' x _ _ hx _
      exact ⟨h'', x, rfl, rfl, le_refl _, hx, rfl, fun _ hxc => hxc, fun i hi => .inr (.inl hi)⟩
  | cons data subs ih =>
    cases ranges with
    | nil => exact absurd hc (by simp [NestCovers])
    | cons r ranges =>
      obtain ⟨hcov, hrest⟩ := hc
      obtain ⟨h1, A, ctl, T, e, sel, heq, hsel⟩ := select_spec hb hcov
      obtain ⟨h', stack, inner, hall, hn⟩ := ih hsel.selWf (hrest _ _ _ _ heq)
      refine ⟨h', _, inner, ?_, Nested.cons hsel hcov.le.1 hn⟩
      simp only [selectAll, heq, hall, Option.map_some]

/-- **Selections are lenses.** Selecting a well-formed sub gives the bytes of the range and leaves
the others; restoring a buffer, moved or cloned, puts its bytes in their place, and restoring the
selection itself gives back the content and the control chunks. So do nested selections, restored in
reverse order. -/
theorem select_restore_lens {h : Heap} {b : Vbuffer} (hb : b.WF h) :
    (∀ data lo hi, b.Covers data lo hi → ∃ h' src sel ref,
      vbufferSelect h b data = (h', src, some (sel, ref)) ∧
      sel.content h' = ((b.content h).take hi).drop lo ∧
      src.content h' = (b.content h).take lo ++ (b.content h).drop hi ∧
      (∀ clone h'' x, h'.Keeps h'' src.all → x.WF h'' → src.Apart x →
        ∃ h₃ b' d, vbufferRestore h'' src ref (some x) clone = (h₃, b', d, true) ∧
          b'.content h₃ = (b.content h).take lo ++ x.content h'' ++ (b.content h).drop hi) ∧
      ∃ h₃ b' d, vbufferRestore h' src ref (some sel) false = (h₃, b', d, true) ∧
        b'.content h₃ = b.content h ∧ b'.ctls = b.ctls) ∧
    ∀ subs ranges, NestCovers h b subs ranges → ∃ h' stack inner,
      selectAll h b subs = some (h', stack, inner) ∧
      inner.content h' = innerBytes (b.content h) ranges ∧
      (∀ clone h'' x, (∀ s ∈ stack, h'.Keeps h'' s.1.all) → h'.next ≤ h''.next → x.WF h'' →
        (∀ s ∈ stack, s.1.Apart x) → ∃ h₃ b', restoreAll clone h'' stack x = some (h₃, b') ∧
          b'.content h₃ = spliceBytes (b.content h) ranges (x.content h'')) ∧
      ∃ h₃ b', restoreAll false h' stack inner = some (h₃, b') ∧
        b'.content h₃ = b.content h ∧ b'.ctls = b.ctls := by
  refine ⟨fun data lo hi hc => ?_, fun subs ranges hc => ?_⟩
  · obtain ⟨h', A, ctl, T, e, sel, heq, hsel⟩ := select_spec hb hc
    have hrange : sel.content h' = ((b.content h).take hi).drop lo := by
      rw [← hsel.range, ← hsel.mem]
      rfl
    refine ⟨h', _, sel, _, heq, hrange, ?_, ?_, ?_⟩
    · have hnil : ctl.bytes h.mem = [] := by
        rw [← hsel.mem]
        exact (hsel.srcWf.valid ctl (by simp)).bytes_of_ctl hsel.isCtl
      unfold Vbuffer.content
      rw [hsel.mem, bytesOf_append, bytesOf_cons, hnil, hsel.before, hsel.after]
      rfl
    · intro clone h'' x hkeeps hx hapart
      obtain ⟨h₃, b', d, hres, hr⟩ :=
        restore_spec clone (hsel.srcWf.keeps hkeeps) hsel.isSelect hx hapart
      refine ⟨h₃, b', some d, hres, ?_⟩
      rw [hr.content, bytesOf_keeps hkeeps (fun c hc => by simp [hc]),
        bytesOf_keeps hkeeps (fun c hc => by simp [hc]), hsel.mem, hsel.before, hsel.after]
    · obtain ⟨h₃, b', d, hres, hr⟩ :=
        restore_spec false hsel.srcWf hsel.isSelect hsel.selWf hsel.apart
      refine ⟨h₃, b', some d, hres, ?_, ?_⟩
      · rw [hr.content, hrange, hsel.mem, hsel.before, hsel.after, take_range_drop _ hc.le.1]
      · rw [hr.ctls, ← hsel.ctls]
        simp
  · obtain ⟨h', stack, inner, heq, hn⟩ := nest_spec hb hc
    refine ⟨h', stack, inner, heq, hn.innerContent, ?_, ?_⟩
    · intro clone h'' x hkeeps hnext hx hapart
      obtain ⟨h₃, b', hres, -, -, -, hcont, -, -⟩ := hn.restore clone h'' x hkeeps hnext hx hapart
      exact ⟨h₃, b', hres, hcont⟩
    · obtain ⟨h₃, b', hres, -, -, -, hcont, hctls, -⟩ := hn.restore false h' inner
        (fun s _ => ⟨le_refl _, fun c _ => rfl⟩) (le_refl _) hn.innerWf hn.apart
      refine ⟨h₃, b', hres, ?_, hctls rfl rfl⟩
      rw [hcont, hn.innerContent, hn.whole]

/-- A selection of "ell" in "hello", and one of its middle byte. -/
theorem select_restore_lens_hello : helloBuffer.WF helloHeap ∧ ∃ h' src sel ref,
      vbufferSelect helloHeap helloBuffer (vbufferSubCreate helloBuffer 1 (some 3)) =
        (h', src, some (sel, ref)) ∧
      sel.content h' = [101, 108, 108] ∧ src.content h' = [104, 111] ∧
      ∃ h₃ b' d, vbufferRestore h' src ref (some sel) false = (h₃, b', d, true) ∧
        b'.content h₃ = [104, 101, 108, 108, 111] := by
  obtain ⟨h', src, sel, ref, heq, hsel, hsrc, -, h₃, b', d, hres, hcont, -⟩ :=
    (select_restore_lens helloBuffer_wf).1 _ _ _ (subCreate_covers 1 3 helloBuffer_wf)
  exact ⟨helloBuffer_wf, h', src, sel, ref, heq, hsel, hsrc, h₃, b', d, hres, hcont⟩

end Haka
