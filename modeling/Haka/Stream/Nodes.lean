import Haka.Stream.Fifo
import Haka.Vbuffer.Control

/-!
# The push nodes of a stream

Marks, selections and restorations change the data of a stream between its push nodes. `Noded` says
that these are, in order, the push nodes of the read chunks and of the chunks still to pop, whatever
stands between them. A call other than a pop replaces a stretch of control chunks without push node
(`Stitched`), so that it keeps the push nodes, and keeps every other control chunk where it is.
-/

namespace Haka

open List

variable {υ : Type}

/-! ## Control chunks -/

def Data.isControl : Data → Bool
  | null => false
  | basic _ => false
  | _ => true

def Chunk.Typed (c : Chunk) : Prop := c.data.isControl = true → c.flags.ctl = true

instance (c : Chunk) : Decidable c.Typed := inferInstanceAs (Decidable (_ → _))

def Data.isOwn (sid : ℕ) : Data → Bool
  | push _ stream chunk => decide (stream = sid) && chunk.isSome
  | _ => false

def StreamChunk.node (sid : ℕ) (sc : StreamChunk υ) : ℕ × Data :=
  (sc.ctlIter, .push sc.ctlData sid (some sc.id))

def ownNodes (sid : ℕ) (l : List (ℕ × Data)) : List (ℕ × Data) := l.filter fun x => x.2.isOwn sid

/-- The push nodes in the data of the stream are those of its chunks, in order. -/
structure Noded (h : Heap) (s : VbufferStream υ) : Prop where
  wf : s.data.WF h
  typed : ∀ c ∈ s.data.all, c.Typed
  nodes : ownNodes s.id (ctlsOf s.data.all) = (s.readChunks ++ s.chunks).map (StreamChunk.node s.id)

section Lists

variable {sid i : ℕ} {l l' : List Chunk} {c : Chunk}

theorem typed_keepsKind : KeepsKind Chunk.Typed := fun c d hdata hctl hd hc => by
  rw [hctl]
  exact hd (by rwa [← hdata])

theorem Chunk.Typed.of_core (hd : c.Typed) {d : Chunk} (he : c.core = d.core) : d.Typed :=
  typed_keepsKind d c (congrArg Chunk.data he).symm (congrArg (fun x => x.flags.ctl) he).symm hd

variable {d : Data}

theorem isControl_of_isOwn (hd : d.isOwn sid = true) : d.isControl = true := by
  cases d <;> first | rfl | simp [Data.isOwn] at hd

theorem isControl_of_blocks (hd : d.blocks = true) : d.isControl = true := by
  cases d <;> first | rfl | simp [Data.blocks] at hd

@[simp] theorem ownNodes_append (x y : List (ℕ × Data)) :
    ownNodes sid (x ++ y) = ownNodes sid x ++ ownNodes sid y := filter_append ..

@[simp] theorem ownNodes_nil : ownNodes sid [] = [] := rfl

@[simp] theorem ctlsOf_view (l : List Chunk) : ctlsOf (view l) = ctlsOf l := by
  simp [ctlsOf, view, filter_map, Function.comp_def]

theorem mem_ctlsOf {x : ℕ × Data} :
    x ∈ ctlsOf l ↔ ∃ c ∈ l, c.flags.ctl = true ∧ (c.id, c.data) = x := by
  simp [ctlsOf, and_assoc]

theorem ids_of_ctlsOf (hi : i ∈ (ctlsOf l).map Prod.fst) : i ∈ idsOf l := by
  obtain ⟨x, hx, rfl⟩ := mem_map.1 hi
  obtain ⟨c, hc, -, rfl⟩ := mem_ctlsOf.1 hx
  exact mem_map_of_mem hc

theorem ctlsOf_ids_nodup (hl : (idsOf l).Nodup) : ((ctlsOf l).map Prod.fst).Nodup := by
  have hmap : (ctlsOf l).map Prod.fst = idsOf (l.filter fun c => c.flags.ctl) := by
    simp [ctlsOf, idsOf]
  rw [hmap]
  exact hl.sublist (filter_sublist.map Chunk.id)

end Lists

/-! ## What stands behind a chunk -/

def behind {α : Type*} (address : α → ℕ) (i : ℕ) (l : List α) : List α :=
  (l.dropWhile fun x => address x ≠ i).drop 1

section Behind

variable {α : Type*} {address : α → ℕ} {i : ℕ} {A B : List α} {x : α}

theorem behind_append_cons (hx : address x = i) (hA : ∀ y ∈ A, address y ≠ i) :
    behind address i (A ++ x :: B) = B := by
  unfold behind
  rw [dropWhile_append_of_pos (by simpa using hA), dropWhile_cons_of_neg (by simp [hx])]
  rfl

theorem exists_of_behind {y : α} {l : List α} (hy : y ∈ behind address i l) :
    ∃ A x B, l = A ++ x :: B ∧ address x = i ∧ (∀ z ∈ A, address z ≠ i) ∧ y ∈ B := by
  induction l with
  | nil => simp [behind] at hy
  | cons z l ih =>
    by_cases hz : address z = i
    · refine ⟨[], z, l, rfl, hz, by simp, ?_⟩
      simpa [behind, hz] using hy
    · have hy' : y ∈ behind address i l := by simpa [behind, hz] using hy
      obtain ⟨A, x, B, rfl, hx, hA, hB⟩ := ih hy'
      exact ⟨z :: A, x, B, rfl, hx, by simpa using ⟨hz, hA⟩, hB⟩

theorem behind_extend {e e' : α} {E : List α} {y : α} (hy : y ∈ behind address i (A ++ [e]))
    (he : y = e → e' = e) : y ∈ behind address i (A ++ e' :: E) := by
  obtain ⟨P, x, B, hl, hx, hP, hB⟩ := exists_of_behind hy
  rcases eq_nil_or_concat B with rfl | ⟨Q, z, rfl⟩
  · simp at hB
  rw [concat_eq_append, ← cons_append, ← append_assoc] at hl
  obtain ⟨rfl, h1⟩ := append_inj' hl rfl
  obtain rfl : e = z := by simpa using h1
  rw [append_assoc, cons_append, behind_append_cons hx hP]
  rw [concat_eq_append, mem_append, mem_singleton] at hB
  rcases hB with hB | hB
  · exact mem_append_left _ hB
  · rw [he hB, hB]
    simp

theorem ctlsOf_behind {l : List Chunk} (hi : ∀ c ∈ l, c.id = i → c.flags.ctl = true) :
    ctlsOf (behind Chunk.id i l) = behind Prod.fst i (ctlsOf l) := by
  induction l with
  | nil => rfl
  | cons c l ih =>
    obtain ⟨hc, hl⟩ := forall_mem_cons.1 hi
    by_cases hid : c.id = i
    · rw [ctlsOf_cons_ctl _ _ (hc hid)]
      simp [behind, hid]
    · cases hctl : c.flags.ctl with
      | true =>
        rw [ctlsOf_cons_ctl _ _ hctl]
        simpa [behind, hid] using ih hl
      | false =>
        rw [ctlsOf_cons_data _ _ hctl, ← ih hl]
        simp [behind, hid]

end Behind

/-- What a stream still has to pop of a list: the elements behind the push node of the last read
chunk. -/
def pendingFrom {α : Type*} (address : α → ℕ) (readLast : Option (StreamChunk υ)) (l : List α) :
    List α :=
  match readLast with
  | none => l
  | some r => behind address r.ctlIter l

def VbufferStream.pending (s : VbufferStream υ) : List Chunk :=
  pendingFrom Chunk.id s.readChunks.getLast? s.data.all

/-! ## Stretches without push node -/

/-- The control chunks with a stretch replaced by new ones, and no push node of the stream in the
stretch before or after. -/
def Stitched (sid : ℕ) (C C' : List (ℕ × Data)) : Prop :=
  ∃ U V V' W, C = U ++ V ++ W ∧ C' = U ++ V' ++ W ∧ ownNodes sid V = [] ∧ ownNodes sid V' = [] ∧
    ∀ x ∈ V', x.1 ∉ C.map Prod.fst

section Stitched

variable {sid : ℕ} {C C' : List (ℕ × Data)}

theorem Stitched.refl (sid : ℕ) (C : List (ℕ × Data)) : Stitched sid C C :=
  ⟨C, [], [], [], by simp, by simp, rfl, rfl, by simp⟩

theorem Stitched.own (hs : Stitched sid C C') : ownNodes sid C' = ownNodes sid C := by
  obtain ⟨U, V, V', W, rfl, rfl, hV, hV', -⟩ := hs
  simp [hV, hV']

variable {x : ℕ × Data}

theorem Stitched.mem_sides {U V V' W : List (ℕ × Data)}
    (hnd : ((U ++ V ++ W).map Prod.fst).Nodup) (hx : x ∈ V)
    (hnew : ∀ y ∈ V', y.1 ∉ (U ++ V ++ W).map Prod.fst) :
    x.1 ∉ (U ++ V' ++ W).map Prod.fst := by
  simp only [map_append, nodup_append, mem_append] at hnd hnew ⊢
  have hxV : x.1 ∈ V.map Prod.fst := mem_map_of_mem hx
  rintro ((hm | hm) | hm)
  · exact hnd.1.2.2 _ hm _ hxV rfl
  · obtain ⟨y, hy, hyx⟩ := mem_map.1 hm
    exact hnew y hy (.inl (.inr (hyx ▸ hxV)))
  · exact hnd.2.2 _ (.inr hxV) _ hm rfl

/-- What stands behind a push node, and is not removed, stays behind it. -/
theorem Stitched.behind (hs : Stitched sid C C') (hnd : (C.map Prod.fst).Nodup)
    (hnd' : (C'.map Prod.fst).Nodup) {r : ℕ × Data} (hr : r ∈ C) (hown : r.2.isOwn sid = true)
    (hx : x ∈ Haka.behind Prod.fst r.1 C) (hx' : x.1 ∈ C'.map Prod.fst) :
    x ∈ Haka.behind Prod.fst r.1 C' := by
  obtain ⟨A, n, B, hC, hn, hA, hB⟩ := exists_of_behind hx
  obtain rfl : n = r :=
    inj_on_of_nodup_map hnd (by rw [hC]; simp) hr hn
  obtain ⟨U, V, V', W, rfl, rfl, hV, -, hnew⟩ := hs
  have hnV : n ∉ V := fun hm => by
    have := filter_eq_nil_iff.1 hV n hm
    simp [hown] at this
  -- a cut of the new list at the node, with `x` behind it
  suffices hcut : ∃ A' B', U ++ V' ++ W = A' ++ n :: B' ∧ x ∈ B' by
    obtain ⟨A', B', heq, hmem⟩ := hcut
    rw [heq] at hnd' ⊢
    rw [behind_append_cons rfl]
    · exact hmem
    · intro y hy hyn
      rw [map_append, map_cons, nodup_append] at hnd'
      exact hnd'.2.2 y.1 (mem_map_of_mem hy) n.1 (by simp) hyn
  have hxV : x ∉ V := fun hm => mem_sides hnd hm hnew hx'
  rw [append_assoc] at hC
  rcases append_eq_append_iff.1 hC with ⟨A', rfl, hVW⟩ | ⟨U', rfl, hVW⟩
  · rcases append_eq_append_iff.1 hVW with ⟨A'', rfl, rfl⟩ | ⟨V'', rfl, hW⟩
    · exact ⟨U ++ V' ++ A'', B, by simp, hB⟩
    · cases V'' with
      | nil =>
        obtain rfl : n :: B = W := hW
        exact ⟨U ++ V', B, by simp, hB⟩
      | cons y V'' =>
        obtain ⟨rfl, -⟩ := cons.inj hW
        simp at hnV
  · cases U' with
    | nil =>
      cases V with
      | nil =>
        obtain rfl : n :: B = W := hVW
        exact ⟨A ++ V', B, by simp, hB⟩
      | cons y V =>
        obtain ⟨rfl, -⟩ := cons.inj hVW
        simp at hnV
    | cons y U' =>
      obtain ⟨rfl, rfl⟩ := cons.inj hVW
      refine ⟨A, U' ++ V' ++ W, by simp, ?_⟩
      have hB : x ∈ U' ++ (V ++ W) := hB
      simp only [mem_append] at hB ⊢
      tauto

theorem Stitched.pending (hs : Stitched sid C C') (hnd : (C.map Prod.fst).Nodup)
    (hnd' : (C'.map Prod.fst).Nodup) {readLast : Option (StreamChunk υ)}
    (hr : ∀ r, readLast = some r → r.node sid ∈ C)
    (hx : x ∈ pendingFrom Prod.fst readLast C) (hx' : x.1 ∈ C'.map Prod.fst) :
    x ∈ pendingFrom Prod.fst readLast C' := by
  cases readLast with
  | none =>
    obtain ⟨U, V, V', W, rfl, rfl, -, -, hnew⟩ := hs
    have hxV : x ∉ V := fun hm => mem_sides hnd hm hnew hx'
    have hx : x ∈ U ++ V ++ W := hx
    show x ∈ U ++ V' ++ W
    simp only [mem_append] at hx ⊢
    tauto
  | some r =>
    exact hs.behind hnd hnd' (hr r rfl) (by simp [StreamChunk.node, Data.isOwn]) hx hx'

end Stitched

/-! ## What a call keeps -/

/-- After the call the push nodes are those of the chunks, and a node that blocks a pop and is not
removed is still on data to be popped. -/
structure Stays (s : VbufferStream υ) (h' : Heap) (s' : VbufferStream υ) : Prop where
  id : s'.id = s.id
  noded : Noded h' s'
  held : ∀ x ∈ ctlsOf s.pending, x.2.blocks = true →
    x.1 ∈ (ctlsOf s'.data.all).map Prod.fst → x ∈ ctlsOf s'.pending

section Noded

variable {h h' : Heap} {s : VbufferStream υ}

theorem Noded.keeps (hn : Noded h s) (hk : h.Keeps h' s.data.all) : Noded h' s :=
  ⟨hn.wf.keeps hk, hn.typed, hn.nodes⟩

theorem Noded.nodup (hn : Noded h s) : ((ctlsOf s.data.all).map Prod.fst).Nodup :=
  ctlsOf_ids_nodup hn.wf.nodup

variable {r : StreamChunk υ}

theorem Noded.node_mem (hn : Noded h s) (hr : r ∈ s.readChunks ++ s.chunks) :
    r.node s.id ∈ ctlsOf s.data.all := by
  have hmem : r.node s.id ∈ ownNodes s.id (ctlsOf s.data.all) := by
    rw [hn.nodes]
    exact mem_map_of_mem hr
  exact (mem_filter.1 hmem).1

theorem Noded.node_chunk (hn : Noded h s) (hr : r ∈ s.readChunks ++ s.chunks)
    {c : Chunk} (hc : c ∈ s.data.all) (hid : c.id = r.ctlIter) : IsNode s.id r c := by
  obtain ⟨d, hd, hctl, hdr⟩ := mem_ctlsOf.1 (hn.node_mem hr)
  obtain ⟨hdi, hdd⟩ := Prod.mk.inj hdr
  obtain rfl : d = c :=
    inj_on_of_nodup_map hn.wf.nodup hd hc (hdi.trans hid.symm)
  exact ⟨hid, hctl, hdd⟩

theorem Noded.ctlsOf_pending (hn : Noded h s) :
    ctlsOf s.pending = pendingFrom Prod.fst s.readChunks.getLast? (ctlsOf s.data.all) := by
  unfold VbufferStream.pending pendingFrom
  cases hr : s.readChunks.getLast? with
  | none => rfl
  | some r =>
    have hmem := mem_append_left s.chunks (mem_of_getLast? hr)
    exact ctlsOf_behind fun c hc hid => (hn.node_chunk hmem hc hid).ctl

variable {data : Vbuffer}

theorem Noded.stitch (hn : Noded h s) (hwf : data.WF h') (htyped : ∀ c ∈ data.all, c.Typed)
    (hst : Stitched s.id (ctlsOf s.data.all) (ctlsOf data.all)) :
    Stays s h' { s with data := data } := by
  have hn' : Noded h' { s with data := data } := ⟨hwf, htyped, hst.own.trans hn.nodes⟩
  refine ⟨rfl, hn', fun x hx _ hx' => ?_⟩
  rw [hn.ctlsOf_pending] at hx
  rw [hn'.ctlsOf_pending]
  refine hst.pending hn.nodup hn'.nodup (fun r hr => ?_) hx hx'
  exact hn.node_mem (mem_append_left _ (mem_of_getLast? hr))

theorem Noded.stays (hn : Noded h s) : Stays s h s := ⟨rfl, hn, fun _ hx _ _ => hx⟩

theorem Noded.of_view (hn : Noded h s) (hv : view data.all = view s.data.all)
    (hl : data.last.flags.ctl = true) : Stays s h { s with data := data } := by
  refine hn.stitch (hn.wf.of_view (by rw [hv]) hl) (fun c hc => ?_) ?_
  · obtain ⟨d, hd, he⟩ : ∃ d ∈ s.data.all, d.core = c.core := by
      have hmem : c.core ∈ view s.data.all := hv ▸ mem_map_of_mem hc
      simpa [view] using hmem
    exact (hn.typed d hd).of_core he
  · rw [← ctlsOf_view data.all, hv, ctlsOf_view]
    exact .refl _ _

theorem finish_stays (hn : Noded h s) : Stays s h (vbufferStreamFinish s) :=
  hn.of_view (by simp [Vbuffer.all]) hn.wf.lastCtl

end Noded

/-! ## Marks -/

section Marks

variable {h : Heap} {s : VbufferStream υ} {pos : Iterator}

theorem Noded.new (hn : Noded h s) {i : ℕ} (hi : h.next ≤ i) :
    i ∉ (ctlsOf s.data.all).map Prod.fst := by
  intro hm
  obtain ⟨c, hc, rfl⟩ := (mem_idsOf _).1 (ids_of_ctlsOf hm)
  have := hn.wf.fresh c hc
  omega

theorem mark_stays (hn : Noded h s)
    (hr : _vbufferIteratorCheck s.data pos = true → s.data.InRange pos) (readonly : Bool) :
    Stays s (vbufferIteratorMark h s.data pos readonly).1
      { s with data := (vbufferIteratorMark h s.data pos readonly).2.1 } := by
  rcases mark_parts hn.wf hr readonly with heq | ⟨h', pos', mark, P, X, Q, l, r, hm, heq⟩ <;>
    rw [heq]
  · exact hn.stays
  have hdata : ∀ x ∈ l ++ r, x.flags.ctl = false := fun x hx => by
    obtain ⟨d, hd, hf, -⟩ := hm.parts x hx
    rw [hf]
    exact hm.noCtl d hd
  have hl : ctlsOf l = [] := ctlsOf_eq_nil fun x hx => hdata x (mem_append_left _ hx)
  have hr' : ctlsOf r = [] := ctlsOf_eq_nil fun x hx => hdata x (mem_append_right _ hx)
  obtain ⟨a, _, hd⟩ := hm.data
  refine hn.stitch hm.wf (fun c hc => ?_) ⟨ctlsOf P, [], [(mark.id, mark.data)],
    ctlsOf (Q ++ [s.data.last]), ?_, ?_, rfl,
      by simp [ownNodes, hd, Data.isOwn], ?_⟩
  · have htyped : ∀ d ∈ P ++ X ++ Q ++ [s.data.last], d.Typed := fun d hd => hn.typed d (by
      rw [Vbuffer.all, hm.body]
      exact hd)
    have hpart : ∀ d ∈ l ++ r, d.Typed := fun d hd => by
      obtain ⟨x, hx, hf, hda⟩ := hm.parts d hd
      exact typed_keepsKind d x hda (by rw [hf]) (htyped x (by simp [hx]))
    simp only [Vbuffer.all_mk, mem_append, mem_cons, not_mem_nil, or_false] at hc htyped hpart
    rcases hc with ((hc | hc) | rfl | hc | hc) | rfl
    · exact htyped c (by simp [hc])
    · exact hpart c (.inl hc)
    · exact fun _ => hm.ctl
    · exact hpart c (.inr hc)
    · exact htyped c (by simp [hc])
    · exact htyped _ (by simp)
  · rw [Vbuffer.all, hm.body]
    simp [ctlsOf_eq_nil hm.noCtl]
  · simp [hl, hr', ctlsOf_cons_ctl _ _ hm.ctl]
  · intro x hx
    obtain rfl : x = (mark.id, mark.data) := by simpa using hx
    exact hn.new hm.new

variable {after : List Chunk} {ctl : Chunk}

theorem Noded.replaceCtl {h' : Heap} {P X : List Chunk} (hn : Noded h s)
    (hbody : s.data.body = P ++ ctl :: after) (hctl : ctl.data.isControl = true)
    (hown : ctl.data.isOwn s.id = false)
    (hwf : (vbufferChunkRemoveCtl (P ++ X) ctl after s.data.last).toVbuffer.WF h')
    (hX : ∀ c ∈ X, c.Typed) (hXown : ownNodes s.id (ctlsOf X) = [])
    (hnew : ∀ x ∈ ctlsOf X, x.1 ∉ (ctlsOf s.data.all).map Prod.fst) :
    Stays s h' { s with
      data := (vbufferChunkRemoveCtl (P ++ X) ctl after s.data.last).toVbuffer } := by
  have hall : s.data.all = P ++ [ctl] ++ (after ++ [s.data.last]) := by
    rw [Vbuffer.all, hbody]
    simp
  have hview := removeCtl_view (P ++ X) after ctl s.data.last
  have hflag : ctl.flags.ctl = true := hn.typed ctl (by rw [hall]; simp) hctl
  refine hn.stitch hwf (fun c hc => ?_) ⟨ctlsOf P, [(ctl.id, ctl.data)], ctlsOf X,
    ctlsOf (after ++ [s.data.last]), ?_, ?_, ?_, hXown, hnew⟩
  · obtain ⟨d, hd, he⟩ : ∃ d ∈ P ++ X ++ after ++ [s.data.last], d.core = c.core := by
      have hmem : c.core ∈ view (P ++ X ++ after ++ [s.data.last]) :=
        hview ▸ mem_map_of_mem hc
      simpa only [view, mem_map] using hmem
    refine Chunk.Typed.of_core ?_ he
    by_cases hdX : d ∈ X
    · exact hX d hdX
    · refine hn.typed d ?_
      rw [hall]
      simp only [mem_append] at hd ⊢
      tauto
  · rw [hall]
    simp [ctlsOf_cons_ctl _ _ hflag]
  · rw [← ctlsOf_view, hview, ctlsOf_view]
    simp
  · simp [ownNodes, hown]

theorem Noded.removeCtl {P : List Chunk} (hn : Noded h s)
    (hbody : s.data.body = P ++ ctl :: after) (hctl : ctl.data.isControl = true)
    (hown : ctl.data.isOwn s.id = false) :
    Stays s h { s with data := (vbufferChunkRemoveCtl P ctl after s.data.last).toVbuffer } := by
  have hwf : (vbufferChunkRemoveCtl (P ++ []) ctl after s.data.last).toVbuffer.WF h := by
    refine hn.wf.of_view ?_ ?_
    · rw [removeCtl_view, Vbuffer.all, hbody]
      simp
    · cases after <;> exact hn.wf.lastCtl
  have hrep := hn.replaceCtl hbody hctl hown hwf (by simp) rfl (by simp)
  rw [append_nil] at hrep
  exact hrep

theorem unmark_stays (hn : Noded h s) :
    Stays s h { s with data := (vbufferIteratorUnmark s.data pos).1 } := by
  rcases unmark_cases s.data pos with heq | ⟨P, ctl, after, hbody, hm, heq⟩ <;> rw [heq]
  · exact hn.stays
  · have hmark : ∀ d : Data, d.isMark = true → d.isControl = true ∧ d.isOwn s.id = false := by
      intro d hd
      cases d <;> first | exact ⟨rfl, rfl⟩ | simp [Data.isMark] at hd
    exact hn.removeCtl hbody (hmark _ hm).1 (hmark _ hm).2

end Marks

/-! ## Selections -/

section Selections

variable {h : Heap} {s : VbufferStream υ} {data : Sub}

theorem select_stays {lo hi : ℕ} (hn : Noded h s) (hc : s.data.Covers data lo hi)
    (hown : ownNodes s.id ((s.data.rangeItems data).filterMap Item.ctl?) = []) :
    Stays s (vbufferSelect h s.data data).1
      { s with data := (vbufferSelect h s.data data).2.1 } := by
  obtain ⟨h1, A, R, T, e, n, w, hcarved, hnew, -, heq⟩ :=
    extract_spec true hn.wf (fun hm : false = true => absurd hm (by simp)) hc
  obtain ⟨h', ctl, sel, hsel, hs, hR⟩ := select_of_carved hcarved hnew heq
  have hlast : e = s.data.last := by
    rw [← extract_last h s.data data true]
    exact (congrArg (fun r => r.2.1.last) hsel).symm
  have htyped := extract_forall typed_keepsKind.parts
    (fun c hc => hn.typed c (mem_append_left _ hc)) h data false true (fun _ c hc _ => hc)
  have hsrc : (_vbufferExtract h s.data data false true).source = ⟨A ++ ctl :: T, e⟩ :=
    congrArg (fun r => r.2.1) hsel
  rw [hsrc] at htyped
  rw [hsel]
  subst hlast
  have hctls : ctlsOf s.data.all = ctlsOf A ++ ctlsOf R ++ ctlsOf (T ++ [s.data.last]) := by
    have := hs.ctls
    rw [Vbuffer.ctls, hR] at this
    rw [Vbuffer.all, ctlsOf_append, ctlsOf_append, ← Vbuffer.ctls, ← this]
    simp
  have hRctls : ctlsOf R = (s.data.rangeItems data).filterMap Item.ctl? := by
    rw [ctlsOf_eq_items, hcarved.itemsRange]
    rfl
  obtain ⟨a, hsd⟩ : ∃ a, ctl.data = .select a := by
    have := hs.isSelect
    cases hd : ctl.data with
    | select a => exact ⟨a, rfl⟩
    | _ => simp [hd, Data.isSelect] at this
  refine hn.stitch hs.srcWf (fun c hc => ?_) ⟨ctlsOf A, ctlsOf R, [(ctl.id, ctl.data)],
    ctlsOf (T ++ [s.data.last]), hctls, ?_, by rw [hRctls, hown], ?_, ?_⟩
  · rcases mem_append.1 hc with hc | hc
    · exact htyped c hc
    · obtain rfl : c = s.data.last := by simpa using hc
      exact hn.typed _ (by simp [Vbuffer.all])
  · simp [ctlsOf_cons_ctl _ _ hs.isCtl]
  · simp [ownNodes, hsd, Data.isOwn]
  · intro x hx
    obtain rfl : x = (ctl.id, ctl.data) := by simpa using hx
    rw [hctls, ← ctlsOf_append, ← ctlsOf_append]
    intro hm
    have hm := ids_of_ctlsOf hm
    have hnd := hs.srcWf.nodup
    simp only [Vbuffer.all_mk, idsOf_append, idsOf_cons, idsOf_nil, nodup_append, mem_append,
      nodup_cons, mem_cons, not_mem_nil, or_false] at hm hnd
    rcases hm with (hm | hm) | hm | hm
    · exact hnd.1.2.2 _ hm _ (.inl rfl) rfl
    · exact hs.apart ctl.id (by simp [Vbuffer.all, hR, hm]) (by simp [Vbuffer.all])
    · exact hnd.1.2.1.1 hm
    · exact hnd.2.2 _ (.inr (.inl rfl)) _ hm rfl

variable {Q : Chunk → Prop}

theorem cloneChunks_forall (hQ : KeepsKind Q) (mode : CloneMode) (h : Heap)
    {l : List Chunk} (hl : ∀ c ∈ l, Q c) : ∀ c ∈ (cloneChunks mode h l).2, Q c := by
  induction l generalizing h with
  | nil => simp [cloneChunks]
  | cons c l ih =>
    obtain ⟨hc, hl⟩ := forall_mem_cons.1 hl
    have hclone : Q (if mode = .roClone then { c with id := h.next }.setWritable false
        else { c with id := h.next }) := by
      split_ifs <;> exact hQ _ c rfl rfl hc
    exact forall_mem_cons.2 ⟨hclone, ih _ hl⟩

theorem restoredChunks_forall (hQ : KeepsKind Q) {x : Vbuffer} (clone : Bool)
    (hx : x.WF h) (hall : ∀ c ∈ x.body, Q c) : ∀ c ∈ (restoredChunks h x clone).2.1, Q c := by
  cases clone with
  | false => exact hall
  | true =>
    have hcl := cloneChunks_forall hQ .roOrig { h with next := h.next + 1 }
      (l := x.body.filter fun c => !c.flags.ctl) fun c hc => hall c (mem_filter.1 hc).1
    rw [← restoredChunks_clone hx] at hcl
    exact hcl

/-- A buffer that may be restored in a stream: it has no push node of the stream. -/
structure Restorable (h : Heap) (s : VbufferStream υ) (b : Vbuffer) : Prop where
  wf : b.WF h
  apart : s.data.Apart b
  typed : ∀ c ∈ b.body, c.Typed
  own : ownNodes s.id b.ctls = []

instance (h : Heap) (s : VbufferStream υ) (b : Vbuffer) : Decidable (Restorable h s b) :=
  decidable_of_iff (b.WF h ∧ s.data.Apart b ∧ (∀ c ∈ b.body, c.Typed) ∧ ownNodes s.id b.ctls = [])
    ⟨fun h => ⟨h.1, h.2.1, h.2.2.1, h.2.2.2⟩, fun h => ⟨h.wf, h.apart, h.typed, h.own⟩⟩

theorem restore_stays {pos : Iterator} {x : Option Vbuffer} (clone : Bool) (hn : Noded h s)
    (hx : ∀ b ∈ x, Restorable h s b) :
    Stays s (vbufferRestore h s.data pos x clone).1
      { s with data := (vbufferRestore h s.data pos x clone).2.1 } := by
  unfold vbufferRestore
  split_ifs with hc
  swap
  · exact hn.stays
  dsimp only
  split
  · exact hn.stays
  · next ctl after hk =>
    split_ifs with hm
    swap
    · exact hn.stays
    have hbody := body_of_seek hk
    have hselect : ∀ d : Data, d.isSelect = true → d.isControl = true ∧ d.isOwn s.id = false := by
      intro d hd
      cases d <;> first | exact ⟨rfl, rfl⟩ | simp [Data.isSelect] at hd
    obtain ⟨hctl, hno⟩ := hselect _ hm
    cases x with
    | none => exact hn.removeCtl hbody hctl hno
    | some b =>
      have hb := hx b rfl
      have hins := restoredChunks_spec clone hb.wf
      have htyped := restoredChunks_forall typed_keepsKind clone hb.wf hb.typed
      have hdata : s.data = ⟨(s.data.seek pos.chunk).before ++ ctl :: after, s.data.last⟩ := by
        rw [← hbody]
      have hwf : (Vbuffer.mk ((s.data.seek pos.chunk).before ++ (restoredChunks h b clone).2.1 ++
          after) s.data.last).WF (restoredChunks h b clone).1 :=
        hins.wf (hdata ▸ hn.wf) (hdata ▸ hb.apart)
      refine hn.replaceCtl hbody hctl hno (Cut.mapChunk_wf (remarks_orModified ctl) hwf) htyped ?_ ?_
      · rw [hins.ctls]
        cases clone
        · exact hb.own
        · rfl
      · intro x hx hm
        have hid := (hins.ids x.1 (ids_of_ctlsOf (mem_map_of_mem hx))).1
        rcases hid with hid | hid
        · exact hb.apart x.1 hid (ids_of_ctlsOf hm)
        · exact hn.new hid hm

end Selections

/-! ## Pushes -/

section Push

variable {h : Heap} {s : VbufferStream υ} {b : Vbuffer}

theorem push_stays (hn : Noded h s) (hb : Restorable h s b) (userdata : Option υ) :
    Stays s (vbufferStreamPush h s b userdata).1 (vbufferStreamPush h s b userdata).2.1 := by
  by_cases heof : s.data.last.flags.eof = true
  · unfold vbufferStreamPush
    rw [if_pos heof]
    exact hn.stays
  obtain ⟨n, «end», node, happ⟩ := push_appended h b (Bool.not_eq_true _ ▸ heof) userdata
  rw [happ.push]
  have hwf := happ.wf hn.wf hb.wf hb.apart
  obtain ⟨modified, writable, hnode⟩ := happ.node
  have hend : «end».flags.ctl = true := happ.ctl.trans hn.wf.lastCtl
  have hctls : ctlsOf s.data.all = ctlsOf s.data.body ++ [(s.data.last.id, s.data.last.data)] := by
    simp [Vbuffer.all, ctlsOf_cons_ctl _ _ hn.wf.lastCtl]
  have hctls' : ctlsOf (Vbuffer.mk (s.data.body ++ «end» :: b.body) node).all =
      ctlsOf s.data.body ++ (s.data.last.id, «end».data) ::
        (ctlsOf b.body ++ [(node.id, node.data)]) := by
    have hone : ctlsOf [node] = [(node.id, node.data)] := by rw [hnode]; rfl
    rw [Vbuffer.all_mk, ctlsOf_append, ctlsOf_append, ctlsOf_cons_ctl _ _ hend, hone, happ.id]
    simp
  have hsame : s.data.last.data ≠ .null → «end».data = s.data.last.data := fun h0 =>
    (congrArg Chunk.data (happ.same h0) : )
  set sc : StreamChunk υ := ⟨h.next, h.next + 1, n, userdata⟩
  have hn' : Noded ⟨n + 1, h.mem⟩ { s with
      data := ⟨s.data.body ++ «end» :: b.body, node⟩, chunks := s.chunks ++ [sc] } := by
    refine ⟨hwf, fun c hc => ?_, ?_⟩
    · simp only [Vbuffer.all_mk, mem_append, mem_cons, not_mem_nil, or_false] at hc
      rcases hc with (hc | rfl | hc) | rfl
      · exact hn.typed c (mem_append_left _ hc)
      · exact fun _ => hend
      · exact hb.typed c hc
      · exact fun _ => by rw [hnode]
    · have hnodes := hn.nodes
      rw [hctls] at hnodes
      show ownNodes s.id _ = (s.readChunks ++ (s.chunks ++ [sc])).map (StreamChunk.node s.id)
      rw [hctls', ← append_assoc s.readChunks, map_append, ← hnodes]
      have hbown : ownNodes s.id (ctlsOf b.body) = [] := hb.own
      have hone : ownNodes s.id [(node.id, node.data)] = [sc.node s.id] := by
        simp [hnode, ownNodes, Data.isOwn, StreamChunk.node, sc]
      have hend' : ownNodes s.id [(s.data.last.id, «end».data)] =
          ownNodes s.id [(s.data.last.id, s.data.last.data)] := by
        by_cases h0 : s.data.last.data = .null
        · obtain ⟨a, ha⟩ := happ.null h0
          simp [ownNodes, ha, h0, Data.isOwn]
        · rw [hsame h0]
      rw [← singleton_append, ownNodes_append, ownNodes_append, ownNodes_append,
        ownNodes_append, hbown, hone, hend']
      simp
  refine ⟨rfl, hn', fun x hx hblocks _ => ?_⟩
  rw [hn.ctlsOf_pending, hctls] at hx
  rw [hn'.ctlsOf_pending, hctls']
  -- a node that blocks is not the end chunk that gets the data of a left-over end node
  have hlast : x = (s.data.last.id, s.data.last.data) →
      (s.data.last.id, «end».data) = (s.data.last.id, s.data.last.data) := by
    rintro rfl
    rw [hsame fun h0 => by simp [h0, Data.blocks] at hblocks]
  unfold pendingFrom at hx ⊢
  cases hr : s.readChunks.getLast? with
  | none =>
    simp only [hr] at hx ⊢
    rcases mem_append.1 hx with hx | hx
    · exact mem_append_left _ hx
    · have hx := mem_singleton.1 hx
      rw [hlast hx, ← hx]
      simp
  | some r =>
    simp only [hr] at hx ⊢
    exact behind_extend hx hlast

end Push

end Haka
