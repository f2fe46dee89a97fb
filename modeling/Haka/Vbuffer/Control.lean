import Haka.Vbuffer.Refine

/-!
# Control chunks under edits

Extraction, erasure and replacement must not lose or reorder marks, selections and push nodes. The
control chunks of the range stay in the source, but in two groups: the loop of `_vbuffer_extract`
leaves those that lead the range where they are and inserts the later ones before them. The order
is kept exactly when one of the two groups is empty.
-/

namespace Haka

open List

/-! ## The two groups of control chunks -/

namespace Vbuffer

def rangeItems (b : Vbuffer) (data : Sub) : List Item :=
  ((itemsOf b.body).take (b.endIndex data)).drop (b.beginIndex data)

def leadingCtls (b : Vbuffer) (data : Sub) : List (ℕ × Data) :=
  ((b.rangeItems data).takeWhile Item.isCtl).filterMap Item.ctl?

def innerCtls (b : Vbuffer) (data : Sub) : List (ℕ × Data) :=
  ((b.rangeItems data).dropWhile Item.isCtl).filterMap Item.ctl?

end Vbuffer

theorem items_of_data {c : Chunk} (hc : c.flags.ctl = false) :
    ∃ x l, c.items = x :: l ∧ x.isCtl = false := by
  unfold Chunk.items
  rw [hc, if_neg (by simp)]
  by_cases h0 : c.size = 0
  · exact ⟨.empty, [], if_pos h0, rfl⟩
  · obtain ⟨n, hn⟩ : ∃ n, c.size = n + 1 := ⟨c.size - 1, by omega⟩
    exact ⟨.byte, replicate n .byte, by rw [if_neg h0, hn, replicate_succ], rfl⟩

theorem ctlsOf_takeWhile (R : List Chunk) : ctlsOf (R.takeWhile fun c => c.flags.ctl) =
      ((itemsOf R).takeWhile Item.isCtl).filterMap Item.ctl? := by
  induction R with
  | nil => rfl
  | cons c R ih =>
    rw [itemsOf_cons]
    cases hc : c.flags.ctl with
    | true =>
      rw [takeWhile_cons_of_pos (by simp [hc]), ctlsOf_cons_ctl _ _ hc, ih,
        show c.items = [.ctl c.id c.data] by simp [Chunk.items, hc]]
      rfl
    | false =>
      obtain ⟨x, l, hx, hctl⟩ := items_of_data hc
      rw [takeWhile_cons_of_neg (by simp [hc]), hx, cons_append,
        takeWhile_cons_of_neg (by simp [hctl])]
      rfl

theorem ctlsOf_dropWhile (R : List Chunk) : ctlsOf (R.dropWhile fun c => c.flags.ctl) =
      ((itemsOf R).dropWhile Item.isCtl).filterMap Item.ctl? := by
  induction R with
  | nil => rfl
  | cons c R ih =>
    rw [itemsOf_cons]
    cases hc : c.flags.ctl with
    | true =>
      rw [dropWhile_cons_of_pos (by simp [hc]), ih,
        show c.items = [.ctl c.id c.data] by simp [Chunk.items, hc]]
      rfl
    | false =>
      obtain ⟨x, l, hx, hctl⟩ := items_of_data hc
      rw [dropWhile_cons_of_neg (by simp [hc]), hx, cons_append,
        dropWhile_cons_of_neg (by simp [hctl]), ← cons_append, ← hx, ← itemsOf_cons,
        ctlsOf_eq_items]

theorem foldl_pass_inner {s : Passed} (R : List Chunk) (hs : s.range ≠ []) :
    ctlsOf (R.foldl (Passed.pass false) s).moved = ctlsOf s.moved ++ ctlsOf R ∧
      (R.foldl (Passed.pass false) s).skipped = s.skipped ∧
      ctlsOf (R.foldl (Passed.pass false) s).range = ctlsOf s.range := by
  induction R generalizing s with
  | nil => simp
  | cons c R ih =>
    rw [foldl_cons]
    cases hc : c.flags.ctl with
    | true =>
      have hpass : s.pass false c = { s with moved := s.moved ++ [c] } := by
        simp [Passed.pass, hc, hs]
      obtain ⟨h1, h2, h3⟩ := ih (s := s.pass false c) (by rw [hpass]; exact hs)
      rw [h1, h2, h3, hpass, ctlsOf_cons_ctl _ _ hc]
      simp [ctlsOf, hc]
    | false =>
      have hpass : s.pass false c = { s with range := s.range ++ [c] } := by
        simp [Passed.pass, hc]
      obtain ⟨h1, h2, h3⟩ := ih (s := s.pass false c) (by rw [hpass]; simp)
      rw [h1, h2, h3, hpass, ctlsOf_cons_data _ _ hc]
      simp [ctlsOf, hc]

theorem foldl_pass_leading (skipped R : List Chunk) :
    ctlsOf (R.foldl (Passed.pass false) ⟨[], skipped, []⟩).moved =
        ctlsOf (R.dropWhile fun c => c.flags.ctl) ∧
      ctlsOf (R.foldl (Passed.pass false) ⟨[], skipped, []⟩).skipped =
        ctlsOf skipped ++ ctlsOf (R.takeWhile fun c => c.flags.ctl) ∧
      ctlsOf (R.foldl (Passed.pass false) ⟨[], skipped, []⟩).range = [] := by
  induction R generalizing skipped with
  | nil => simp
  | cons c R ih =>
    rw [foldl_cons]
    cases hc : c.flags.ctl with
    | true =>
      have hpass : Passed.pass false ⟨[], skipped, []⟩ c = ⟨[], skipped ++ [c], []⟩ := by
        simp [Passed.pass, hc]
      obtain ⟨h1, h2, h3⟩ := ih (skipped ++ [c])
      rw [hpass, h1, h2, h3, dropWhile_cons_of_pos (by simp [hc]), takeWhile_cons_of_pos (by simp [hc]),
        ctlsOf_cons_ctl _ _ hc]
      simp [ctlsOf, hc]
    | false =>
      have hpass : Passed.pass false ⟨[], skipped, []⟩ c = ⟨[], skipped, [c]⟩ := by
        simp [Passed.pass, hc]
      obtain ⟨h1, h2, h3⟩ := foldl_pass_inner (s := ⟨[], skipped, [c]⟩) R (by simp)
      rw [hpass, h1, h2, h3, dropWhile_cons_of_neg (by simp [hc]),
        takeWhile_cons_of_neg (by simp [hc]), ctlsOf_cons_data _ _ hc]
      simp [ctlsOf, hc]

/-! ## The order of the control chunks -/

theorem append_comm_iff_of_nodup {α : Type*} {x y : List α} (hnd : (x ++ y).Nodup) :
    y ++ x = x ++ y ↔ x = [] ∨ y = [] := by
  constructor
  · intro heq
    cases x with
    | nil => exact .inl rfl
    | cons a x =>
      cases y with
      | nil => exact .inr rfl
      | cons b y =>
        have hab : b = a := (cons.inj heq).1
        rw [nodup_append] at hnd
        exact absurd hab.symm (hnd.2.2 a (by simp) b (by simp))
  · rintro (rfl | rfl) <;> simp

theorem nodup_ctlsOf {l : List Chunk} (hl : (idsOf l).Nodup) : (ctlsOf l).Nodup := by
  have hfst : (ctlsOf l).map Prod.fst = idsOf (l.filter fun c => c.flags.ctl) := by
    simp [ctlsOf, idsOf, Function.comp_def]
  refine List.Nodup.of_map Prod.fst ?_
  rw [hfst]
  exact hl.sublist (filter_sublist.map Chunk.id)

theorem ctls_of_carved {h h' : Heap} {b : Vbuffer} {data : Sub} {lo hi : ℕ} {A R T X : List Chunk}
    {e : Chunk} (hc : Carved h b lo hi (b.beginIndex data) (b.endIndex data) h' A R T e)
    (hX : ctlsOf X = []) :
    (ctlsOf (A ++ (R.foldl (Passed.pass false) ⟨[], [], []⟩).moved ++
        (R.foldl (Passed.pass false) ⟨[], [], []⟩).skipped ++ X ++ T) = b.ctls ↔
      b.leadingCtls data = [] ∨ b.innerCtls data = []) ∧
    ctlsOf (R.foldl (Passed.pass false) ⟨[], [], []⟩).range = [] := by
  obtain ⟨hmoved, hskipped, hrange⟩ := foldl_pass_leading [] R
  refine ⟨?_, hrange⟩
  have hlead : b.leadingCtls data = ctlsOf (R.takeWhile fun c => c.flags.ctl) := by
    rw [ctlsOf_takeWhile, hc.itemsRange]
    rfl
  have hinner : b.innerCtls data = ctlsOf (R.dropWhile fun c => c.flags.ctl) := by
    rw [ctlsOf_dropWhile, hc.itemsRange]
    rfl
  have hR : ctlsOf R = b.leadingCtls data ++ b.innerCtls data := by
    rw [hlead, hinner, ← ctlsOf_append, takeWhile_append_dropWhile]
  have hb : b.ctls = ctlsOf A ++ (b.leadingCtls data ++ b.innerCtls data) ++ ctlsOf T := by
    unfold Vbuffer.ctls
    rw [ctlsOf_eq_items b.body, ← hc.items, filterMap_append, filterMap_append,
      ← ctlsOf_eq_items, ← ctlsOf_eq_items, ← ctlsOf_eq_items, hR]
  have hnd : (b.leadingCtls data ++ b.innerCtls data).Nodup := by
    rw [← hR]
    refine nodup_ctlsOf (hc.wf.nodup_body.sublist ?_)
    simp only [idsOf_append]
    exact (sublist_append_right _ _).trans (sublist_append_left _ _)
  simp only [ctlsOf_append, hmoved, hskipped, hX, ctlsOf_nil, nil_append, append_nil]
  rw [hb, ← hlead, ← hinner, append_assoc (ctlsOf A) (b.innerCtls data),
    append_left_inj, append_right_inj]
  exact append_comm_iff_of_nodup hnd

theorem extract_ctls {h h' : Heap} {b src ext : Vbuffer} {data : Sub} {mark : Bool} {lo hi : ℕ}
    {k : Cut} {X : List Chunk} (hb : b.WF h) (hc : b.Covers data lo hi)
    (hr : _vbufferExtract h b data mark false = ⟨h', src, some (ext, k)⟩) (hX : ctlsOf X = []) :
    src = k.toVbuffer ∧ ext.ctls = [] ∧ (ctlsOf (k.before ++ X ++ k.after) = b.ctls ↔
      b.leadingCtls data = [] ∨ b.innerCtls data = []) := by
  rcases extract_cases mark false hb hc with ⟨hnone, -⟩ | ⟨h1, A, R, T, e, n, w, hcarved, -, -, heq⟩
  · rw [hr] at hnone
    simp at hnone
  · obtain ⟨hiff, hrange⟩ := ctls_of_carved hcarved hX
    rw [hr] at heq
    obtain ⟨-, rfl, rfl, rfl⟩ := heq
    exact ⟨rfl, hrange, hiff⟩

/-- **Control chunks.** Extraction, erasure and replacement move no control chunk to the extracted
buffer, and keep the order of those of the source exactly when the range does not start with control
chunks or holds none after its first data chunk. -/
theorem control_order_kept_iff {h : Heap} {b : Vbuffer} {data : Sub} {lo hi : ℕ} (hb : b.WF h)
    (hc : b.Covers data lo hi) :
    (∀ h' src ext, vbufferExtract h b data = (h', src, some ext) → ext.ctls = [] ∧
      (src.ctls = b.ctls ↔ b.leadingCtls data = [] ∨ b.innerCtls data = [])) ∧
    (∀ h' src, vbufferErase h b data = (h', src, true) →
      (src.ctls = b.ctls ↔ b.leadingCtls data = [] ∨ b.innerCtls data = [])) ∧
    ∀ d h' src new, d.ctls = [] → vbufferReplace h b data d = (h', src, some new) →
      (src.ctls = b.ctls ↔ b.leadingCtls data = [] ∨ b.innerCtls data = []) := by
  have hplain : ∀ {h' : Heap} {src ext : Vbuffer} {k : Cut},
      _vbufferExtract h b data true false = ⟨h', src, some (ext, k)⟩ →
      ext.ctls = [] ∧ (src.ctls = b.ctls ↔ b.leadingCtls data = [] ∨ b.innerCtls data = []) := by
    intro h' src ext k hr
    obtain ⟨rfl, hext, hiff⟩ := extract_ctls (X := []) hb hc hr rfl
    rw [append_nil] at hiff
    exact ⟨hext, hiff⟩
  refine ⟨fun h' src ext hr => ?_, fun h' src hr => ?_, fun d h' src new hd hr => ?_⟩
  · unfold vbufferExtract at hr
    cases hx : (_vbufferExtract h b data true false).extracted with
    | none => simp [hx] at hr
    | some x =>
      simp only [hx, Option.map_some, Prod.mk.injEq, Option.some.injEq] at hr
      obtain ⟨-, rfl, rfl⟩ := hr
      exact hplain (by rw [← hx])
  · unfold vbufferErase at hr
    cases hx : (_vbufferExtract h b data true false).extracted with
    | none => simp [hx] at hr
    | some x =>
      simp only [Prod.mk.injEq] at hr
      obtain ⟨-, rfl, -⟩ := hr
      exact (hplain (by rw [← hx])).2
  · unfold vbufferReplace at hr
    cases hx : _vbufferExtract h b data true false with
    | mk h1 s1 x =>
      cases x with
      | none => simp [hx] at hr
      | some x =>
        simp only [hx, Prod.mk.injEq] at hr
        obtain ⟨-, rfl, -⟩ := hr
        obtain ⟨-, -, hiff⟩ := extract_ctls hb hc hx hd
        rw [← hiff, Vbuffer.ctls, Cut.insert, Cut.markModified, ctlsOf_append, ctlsOf_append,
          Cut.mapChunk_ctls remarks_markModified, Cut.mapChunk_before, ctlsOf_append, ctlsOf_append]

/-- In "hello" the mark stands between the bytes of the range, and erasing keeps it. -/
theorem control_order_kept_hello :
    helloBuffer.Covers (vbufferSubCreate helloBuffer 1 (some 3)) 1 4 ∧
      ((vbufferErase helloHeap helloBuffer (vbufferSubCreate helloBuffer 1 (some 3))).2.1.ctls =
        helloBuffer.ctls ↔
      helloBuffer.leadingCtls (vbufferSubCreate helloBuffer 1 (some 3)) = [] ∨
        helloBuffer.innerCtls (vbufferSubCreate helloBuffer 1 (some 3)) = []) :=
  ⟨subCreate_covers 1 3 helloBuffer_wf,
    (control_order_kept_iff helloBuffer_wf (subCreate_covers 1 3 helloBuffer_wf)).2.1
      (vbufferErase helloHeap helloBuffer (vbufferSubCreate helloBuffer 1 (some 3))).1 _
      (Prod.ext rfl (Prod.ext rfl (by decide)))⟩

def pushedHeap : Heap :=
  ⟨13, fun a => if a = 1 then [97, 98] else if a = 2 then [99, 100] else
    if a = 3 then [101, 102] else []⟩

/-- The data of a stream in which "ab", "cd" and "ef" were pushed: after each the push node of its
stream chunk. -/
def pushedBuffer : Vbuffer :=
  ⟨[⟨4, ⟨false, false, true, false⟩, .basic 1, 0, 2⟩, ⟨5, ⟨false, false, true, true⟩, .push 10 0 (some 0), 0, 0⟩,
    ⟨6, ⟨false, false, true, false⟩, .basic 2, 0, 2⟩, ⟨7, ⟨false, false, true, true⟩, .push 11 0 (some 1), 0, 0⟩,
    ⟨8, ⟨false, false, true, false⟩, .basic 3, 0, 2⟩, ⟨9, ⟨false, false, true, true⟩, .push 12 0 (some 2), 0, 0⟩],
    endChunk 0 true⟩

theorem pushedBuffer_wf : pushedBuffer.WF pushedHeap := by
  decide

/-- Erasing "cde" puts the push node of the second buffer before that of the first. -/
theorem erase_swaps_push_nodes :
    pushedBuffer.WF pushedHeap ∧ pushedBuffer.Covers (vbufferSubCreate pushedBuffer 2 (some 3)) 2 5 ∧
      (vbufferErase pushedHeap pushedBuffer (vbufferSubCreate pushedBuffer 2 (some 3))).2.2 = true ∧
      pushedBuffer.ctls =
        [(5, .push 10 0 (some 0)), (7, .push 11 0 (some 1)), (9, .push 12 0 (some 2))] ∧
      (vbufferErase pushedHeap pushedBuffer (vbufferSubCreate pushedBuffer 2 (some 3))).2.1.ctls =
        [(7, .push 11 0 (some 1)), (5, .push 10 0 (some 0)), (9, .push 12 0 (some 2))] :=
  ⟨pushedBuffer_wf, subCreate_covers 2 3 pushedBuffer_wf, by decide, by decide, by decide⟩

end Haka
