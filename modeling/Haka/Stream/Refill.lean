import Haka.Lib.Reassembly
import Haka.Stream.Nodes
import Haka.Stream.SubStream

/-!
# Sub streams put back what they took

Pushes to a sub stream take ranges out of the outer buffer and leave a select node for each. In
between, the data of the stream may be edited, each piece up to its push node. A pop puts the pieces
back at the nodes. This goes well if every sub begins behind the nodes of the earlier pushes. A sub
that takes the node of an earlier push along moves that place into the stream, where an edit can get
in front of it.
-/

namespace Haka

open List Reassembly

/-! ## Pieces -/

/-- The bytes before each push node of the stream, `piece` those since the last one. -/
def piecesFrom (m : ℕ → List UInt8) (sid : ℕ) (piece : List UInt8) : List Chunk → List (List UInt8)
  | [] => []
  | c :: l =>
    if c.data.isOwn sid then piece :: piecesFrom m sid [] l
    else piecesFrom m sid (piece ++ c.bytes m) l

def VbufferStream.pieces {υ : Type} (h : Heap) (s : VbufferStream υ) : List (List UInt8) :=
  (piecesFrom h.mem s.id [] s.data.all).drop s.readChunks.length

section Pieces

variable {υ : Type} {m : ℕ → List UInt8} {sid : ℕ} {foreign : Bool} {l : List Chunk}
  {reads : List (StreamChunk υ)} {pend : List (StreamChunk υ × List UInt8)}

theorem piecesFrom_view (piece : List UInt8) (l : List Chunk) :
    piecesFrom m sid piece (view l) = piecesFrom m sid piece l := by
  induction l generalizing piece with
  | nil => rfl
  | cons c l ih =>
    simp only [view_cons, piecesFrom, Chunk.core_data, ih]
    rfl

theorem piecesFrom_append {seg : List Chunk} (piece : List UInt8)
    (hseg : ∀ c ∈ seg, c.data.isOwn sid = false) :
    piecesFrom m sid piece (seg ++ l) = piecesFrom m sid (piece ++ bytesOf m seg) l := by
  induction seg generalizing piece with
  | nil => simp
  | cons c seg ih =>
    rw [cons_append, piecesFrom, if_neg (by simp [hseg c (by simp)]),
      ih _ fun d hd => hseg d (by simp [hd]), bytesOf_cons, append_assoc]

theorem Plain.not_node {c : Chunk} (hc : Plain sid foreign c) : c.data.isOwn sid = false := by
  have hd := hc.data
  cases hdata : c.data with
  | push a stream chunk =>
    rw [hdata] at hd
    simp only [Data.isPlain, Bool.and_eq_true, decide_eq_true_eq] at hd
    simp [Data.isOwn, hd.2]
  | _ => rfl

theorem IsLeft.not_node {c : Chunk} (hc : IsLeft sid c) : c.data.isOwn sid = false := by
  have hd := hc.1
  cases hdata : c.data with
  | push a stream chunk =>
    rw [hdata] at hd
    simp only [Data.isLeft, Bool.and_eq_true, Option.isNone_iff_eq_none] at hd
    simp [Data.isOwn, hd.2]
  | _ => rfl

theorem StreamSegs.pieces (h : StreamSegs m sid foreign (entries reads pend) l) :
    (piecesFrom m sid [] l).drop reads.length = pend.map Prod.snd := by
  have hnode : ∀ (e : Entry υ) {seg rest : List Chunk} {d : Chunk},
      (∀ c ∈ seg, Plain sid foreign c) → IsNode sid e.1 d → piecesFrom m sid [] (seg ++ d :: rest) =
        bytesOf m seg :: piecesFrom m sid [] rest := by
    intro e seg rest d hseg hd
    rw [piecesFrom_append _ fun c hc => (hseg c hc).not_node, piecesFrom,
      if_pos (by simp [hd.data, Data.isOwn]), nil_append]
  induction reads generalizing l with
  | nil =>
    rw [length_nil, drop_zero]
    induction pend generalizing l with
    | nil =>
      have hl := piecesFrom_append (m := m) (l := []) [] fun c hc => (h.1 c hc).not_node
      rwa [append_nil] at hl
    | cons p pend ih =>
      obtain ⟨seg, d, rest, rfl, hseg, hholds, hd, hrest⟩ := h
      rw [hnode _ hseg hd, ih hrest, hholds p.2 rfl]
      rfl
  | cons r reads ih =>
    obtain ⟨seg, d, rest, rfl, hseg, -, hd, hrest⟩ := h
    rw [hnode _ hseg hd, length_cons, drop_succ_cons]
    exact ih hrest

theorem Fifo.pieces {h : Heap} {s : VbufferStream υ} (hf : Fifo foreign h s pend) :
    s.pieces h = pend.map Prod.snd := by
  unfold VbufferStream.pieces
  rw [← piecesFrom_view]
  rcases hf.layout with hsegs | ⟨V1, L, V2, hl, hL, -, hr, hV, hsegs⟩
  · exact hsegs.pieces
  · rw [hr] at hsegs ⊢
    rw [← hsegs.pieces, hl]
    have hbytes : L.bytes h.mem = [] := by
      have hmem : L ∈ view s.data.all := by rw [hl]; simp
      obtain ⟨c, hc, rfl⟩ := mem_map.1 hmem
      exact (hf.wf.valid c hc).bytes_of_ctl hL.2
    have hV' : ∀ c ∈ V1, c.data.isOwn s.id = false := fun c hc => (hV c hc).not_node
    rw [piecesFrom_append _ hV', piecesFrom_append _ hV', piecesFrom,
      if_neg (by simp [hL.not_node]), hbytes, append_nil]

end Pieces

/-! ## The open places of the outer buffer -/

def removed (ranges : List (ℕ × ℕ)) : ℕ := (ranges.map fun r => r.2 - r.1).sum

/-- The content `c` from `pos` on, each range replaced by its piece. -/
def refill (c : List UInt8) : ℕ → List (ℕ × ℕ) → List (List UInt8) → List UInt8
  | pos, (lo, hi) :: ranges, x :: xs => (c.take lo).drop pos ++ x ++ refill c hi ranges xs
  | pos, _, _ => c.drop pos

/-- The items and the bytes of a buffer that holds `c` from `pos` on without the ranges from `lo` to
`hi`, each with the select node `id` in its place. -/
def Opened (c : List UInt8) : ℕ → List (ℕ × ℕ × ℕ) → List Item → List UInt8 → Prop
  | pos, [], _, bytes => bytes = c.drop pos
  | pos, (id, lo, hi) :: holes, items, bytes => ∃ I d J rest, items = I ++ .ctl id d :: J ∧
      pos + I.count .byte = lo ∧ lo ≤ hi ∧ hi ≤ c.length ∧ d.isSelect = true ∧
      bytes = (c.take lo).drop pos ++ rest ∧ Opened c hi holes J rest

section Opened

variable {c : List UInt8} {pos : ℕ} {holes : List (ℕ × ℕ × ℕ)} {items IA IR IT : List Item}
  {bytes a r t : List UInt8}

def itemIds (items : List Item) : List ℕ := (items.filterMap Item.ctl?).map Prod.fst

@[simp] theorem itemIds_append : itemIds (IA ++ IR) = itemIds IA ++ itemIds IR := by
  simp [itemIds]

@[simp] theorem itemIds_ctl (id : ℕ) (d : Data) :
    itemIds (.ctl id d :: IA) = id :: itemIds IA := rfl

variable {d : Data}

theorem cut_in_front {I J : List Item} {id : ℕ} (h : IA ++ IR = I ++ .ctl id d :: J)
    (hnd : (itemIds (IA ++ IR)).Nodup) (hid : id ∈ itemIds IA) :
    ∃ J', IA = I ++ .ctl id d :: J' ∧ J = J' ++ IR := by
  rcases append_eq_append_iff.1 h with ⟨I', hI, hIR⟩ | ⟨J', hIA, hJ⟩
  · exfalso
    rw [itemIds_append, hIR, itemIds_append, itemIds_ctl, nodup_append] at hnd
    exact hnd.2.2 id hid id (by simp) rfl
  · cases J' with
    | nil =>
      exfalso
      rw [nil_append] at hJ
      rw [itemIds_append, ← hJ, itemIds_ctl, nodup_append] at hnd
      exact hnd.2.2 id hid id (by simp) rfl
    | cons x J' =>
      obtain ⟨rfl, rfl⟩ := cons.inj hJ
      exact ⟨J', hIA, rfl⟩

theorem Opened.ids (ho : Opened c pos holes items bytes) : ∀ x ∈ holes, x.1 ∈ itemIds items := by
  induction holes generalizing pos items bytes with
  | nil => simp
  | cons y holes ih =>
    obtain ⟨I, d, J, rest, rfl, -, -, -, -, -, hrest⟩ := ho
    intro x hx
    rcases mem_cons.1 hx with rfl | hx
    · simp
    · simp [ih hrest x hx]

theorem Opened.refill (ho : Opened c pos holes items bytes) :
    refill c pos (holes.map Prod.snd) (holes.map fun x => slice c x.2.1 x.2.2) = c.drop pos := by
  induction holes generalizing pos items bytes with
  | nil => rfl
  | cons x holes ih =>
    obtain ⟨id, lo, hi⟩ := x
    obtain ⟨I, d, J, rest, -, hlo, hle, hmax, -, -, hrest⟩ := ho
    show slice c pos lo ++ slice c lo hi ++ Haka.refill c hi _ _ = _
    rw [ih hrest, append_assoc, slice_append_drop hle, slice_append_drop (by omega)]

/-- **One more place.** Behind the open places a range is taken out and its node left. -/
theorem Opened.push (ho : Opened c pos holes (IA ++ IR ++ IT) (a ++ r ++ t))
    (hnd : (itemIds (IA ++ IR ++ IT)).Nodup) (hids : ∀ x ∈ holes, x.1 ∈ itemIds IA)
    (ha : IA.count .byte = a.length) (id : ℕ) (hd : d.isSelect = true)
    (hpos : pos ≤ c.length) :
    Opened c pos (holes ++ [(id, pos + a.length + removed (holes.map Prod.snd),
      pos + a.length + r.length + removed (holes.map Prod.snd))]) (IA ++ .ctl id d :: IT) (a ++ t) ∧
    r = slice c (pos + a.length + removed (holes.map Prod.snd))
      (pos + a.length + r.length + removed (holes.map Prod.snd)) := by
  induction holes generalizing pos IA a with
  | nil =>
    have hbytes : a ++ r ++ t = c.drop pos := ho
    have hlen := congrArg length hbytes
    simp only [length_append, length_drop] at hlen
    refine ⟨⟨IA, d, IT, t, rfl, by simp [removed, ha], by simp [removed], by simp [removed]; omega,
      hd, ?_, ?_⟩, ?_⟩
    · have hgap : (c.take (pos + a.length)).drop pos = a := by
        rw [drop_take, ← hbytes, append_assoc, Nat.add_sub_cancel_left, take_left]
      simp [removed, hgap]
    · show t = c.drop _
      have hdrop : c.drop (pos + (a ++ r).length) = t := by
        rw [← drop_drop, ← hbytes, drop_left]
      rw [← hdrop]
      simp [removed, Nat.add_assoc]
    · have hr : (c.take (pos + a.length + r.length)).drop (pos + a.length) = r := by
        rw [drop_take, ← drop_drop, ← hbytes, append_assoc, drop_left,
          Nat.add_sub_cancel_left, take_left]
      simp [removed, slice, hr]
  | cons x holes ih =>
    obtain ⟨id1, lo, hi⟩ := x
    obtain ⟨I, d1, J, rest, hitems, hlo, hle, hmax, hd1, hbytes, hrest⟩ := ho
    rw [append_assoc] at hitems hnd
    obtain ⟨IA', rfl, rfl⟩ := cut_in_front hitems hnd (hids (id1, lo, hi) (by simp))
    have hgap : ((c.take lo).drop pos).length = I.count .byte := by
      rw [length_drop, length_take]
      omega
    -- the bytes before the range begin with those before the first place
    obtain ⟨a', rfl, hrest'⟩ : ∃ a', a = (c.take lo).drop pos ++ a' ∧ rest = a' ++ r ++ t := by
      have hlen : ((c.take lo).drop pos).length ≤ a.length := by
        rw [hgap, ← ha, count_append]
        omega
      rw [append_assoc] at hbytes
      obtain ⟨a', ha', hr'⟩ | ⟨e, he, hr'⟩ := append_eq_append_iff.1 hbytes
      · have : a' = [] := by
          have := congrArg length ha'
          rw [length_append] at this
          exact eq_nil_of_length_eq_zero (by omega)
        subst this
        exact ⟨[], by simpa using ha'.symm, by simpa using hr'.symm⟩
      · exact ⟨e, he, by rw [hr', append_assoc]⟩
    rw [hrest', ← append_assoc] at hrest
    rw [itemIds_append, itemIds_append, itemIds_ctl] at hnd
    have hcount : IA'.count .byte = a'.length := by
      rw [length_append, hgap, count_append, count_cons_of_ne (by simp)] at ha
      omega
    have hnd' : (itemIds (IA' ++ IR ++ IT)).Nodup := by
      rw [append_assoc, itemIds_append]
      refine hnd.sublist ?_
      rw [append_assoc]
      exact (sublist_cons_self _ _).trans (sublist_append_right _ _)
    have hids' : ∀ x ∈ holes, x.1 ∈ itemIds IA' := by
      intro x hx
      have hfront := hids x (by simp [hx])
      have hback := hrest.ids x hx
      rw [append_assoc, itemIds_append] at hback
      rw [itemIds_append, itemIds_ctl, mem_append, mem_cons] at hfront
      rw [append_assoc, nodup_append, cons_append, nodup_cons] at hnd
      rcases hfront with hfront | hfront | hfront
      · exact absurd rfl (hnd.2.2 _ hfront _ (mem_cons_of_mem _ hback))
      · exact absurd (hfront ▸ hback) hnd.2.1.1
      · exact hfront
    have hih := ih hrest hnd' hids' hcount hmax
    have hpos' : pos + ((c.take lo).drop pos ++ a').length +
        removed (((id1, lo, hi) :: holes).map Prod.snd) =
        hi + a'.length + removed (holes.map Prod.snd) := by
      rw [length_append, hgap]
      simp only [removed, map_cons, sum_cons]
      omega
    have hpos'' : pos + ((c.take lo).drop pos ++ a').length + r.length +
        removed (((id1, lo, hi) :: holes).map Prod.snd) =
        hi + a'.length + r.length + removed (holes.map Prod.snd) := by
      omega
    rw [hpos', hpos'']
    exact ⟨⟨I, d1, IA' ++ .ctl id d :: IT, a' ++ t, by simp, hlo, hle, hmax, hd1, by simp, hih.1⟩,
      hih.2⟩

end Opened

/-! ## Pushes and edits -/

/-- The sub begins behind the nodes that the pushes to the stream left in the outer buffer. -/
def BehindNodes (s : VbufferSubStream) (b : Vbuffer) (data : Sub) : Prop :=
  ∀ chunk ∈ s.chunks, ∀ u ∈ chunk.userdata,
    u.select.chunk ∈ itemIds ((itemsOf b.body).take (b.beginIndex data))

instance (s : VbufferSubStream) (b : Vbuffer) (data : Sub) : Decidable (BehindNodes s b data) :=
  inferInstanceAs (Decidable (∀ chunk ∈ s.chunks, ∀ u ∈ chunk.userdata, _))

/-- After pushes of ranges of the outer buffer to a stream with nothing to give. In between other
memory may be written and, if `edits` allows it, the data of the stream edited: it is still made of
pieces ended by its push nodes. -/
inductive Pushed (edits : Bool) (h₀ : Heap) (s₀ : VbufferSubStream) (b₀ : Vbuffer) :
    Heap → VbufferSubStream → Vbuffer → List (ℕ × ℕ) → Prop
  | start : Pushed edits h₀ s₀ b₀ h₀ s₀ b₀ []
  | push {h : Heap} {s : VbufferSubStream} {b : Vbuffer} {ranges : List (ℕ × ℕ)} {data : Sub}
      {lo hi : ℕ} (hrun : Pushed edits h₀ s₀ b₀ h s b ranges)
      (hfin : vbufferStreamIsfinished s = false) (hc : b.Covers data lo hi)
      (hbehind : BehindNodes s b data) :
      Pushed edits h₀ s₀ b₀ (vbufferSubStreamPush h s b data).1
        (vbufferSubStreamPush h s b data).2.1 (vbufferSubStreamPush h s b data).2.2.1
        (ranges ++ [(lo + removed ranges, hi + removed ranges)])
  | keep {h h' : Heap} {s : VbufferSubStream} {b : Vbuffer} {ranges : List (ℕ × ℕ)}
      (hrun : Pushed edits h₀ s₀ b₀ h s b ranges) (hb : h.Keeps h' b.all)
      (hs : h.Keeps h' s.data.all) : Pushed edits h₀ s₀ b₀ h' s b ranges
  | edit {h h' : Heap} {s : VbufferSubStream} {b data : Vbuffer} {ranges : List (ℕ × ℕ)}
      (hrun : Pushed edits h₀ s₀ b₀ h s b ranges) (hedits : edits = true) (hb : h.Keeps h' b.all)
      (hdata : ∃ pend, Fifo true h' { s with data := data } pend) (ha : data.Apart b) :
      Pushed edits h₀ s₀ b₀ h' { s with data := data } b ranges

/-- The user data that `vbuffer_sub_stream_push` gives to a chunk, for the node of an open place. -/
def holeData (x : ℕ × ℕ × ℕ) : Option VbufferSubStreamChunk := some ⟨⟨x.1, 0, 0, true⟩⟩

/-- What pushes and edits keep: the outer buffer has an open place for each chunk of the stream. -/
structure Lent (edits : Bool) (c : List UInt8) (h : Heap) (s : VbufferSubStream) (b : Vbuffer)
    (holes : List (ℕ × ℕ × ℕ)) (pend : List (StreamChunk VbufferSubStreamChunk × List UInt8)) :
    Prop where
  fifo : Fifo true h s pend
  wf : b.WF h
  apart : s.data.Apart b
  plain : ∀ x ∈ b.body, Plain s.id true x
  nodes : s.chunks.map (fun x => x.userdata) = holes.map holeData
  opened : Opened c 0 holes (itemsOf b.body) (b.content h)
  same : edits = false → pend.map Prod.snd = holes.map fun x => slice c x.2.1 x.2.2

variable {l A D L : List Chunk} {h : Heap} {b : Vbuffer} {c : List UInt8} {s : VbufferSubStream}

variable {m : ℕ → List UInt8}

theorem count_itemsOf (hl : ∀ c ∈ l, c.Valid m) :
    (itemsOf l).count .byte = (bytesOf m l).length := by
  rw [length_bytesOf hl, totalSize_eq_items fun c hc => (hl c hc).ctlSize]

theorem itemIds_nodup (hl : (idsOf l).Nodup) : (itemIds (itemsOf l)).Nodup := by
  unfold itemIds
  rw [← ctlsOf_eq_items]
  exact ctlsOf_ids_nodup hl

variable {data : Sub}

theorem select_plain {h' : Heap} {src sel : Vbuffer} {ref : Iterator} {sid : ℕ}
    (hb : ∀ x ∈ b.body, Plain sid true x)
    (hsel : vbufferSelect h b data = (h', src, some (sel, ref))) :
    (∀ x ∈ src.body, Plain sid true x) ∧ ∀ x ∈ sel.body, Plain sid true x := by
  have hnode : ∀ c : Chunk, c.flags.ctl = true → c.data.isSelect = true → Plain sid true c := by
    intro c hctl hc
    cases hd : c.data with
    | select a => exact ⟨by rw [hd]; rfl, fun _ => hctl⟩
    | _ => simp [hd, Data.isSelect] at hc
  obtain ⟨hsrc, hext⟩ := extract_parts (plain_keepsKind sid true).parts hb h data false true
    fun _ => hnode
  unfold vbufferSelect at hsel
  obtain ⟨-, rfl, hmap⟩ : _ ∧ (_vbufferExtract h b data false true).source = src ∧ _ := by
    simpa only [Prod.mk.injEq] using hsel
  obtain ⟨x, hx, hxs⟩ := Option.map_eq_some_iff.1 hmap
  obtain ⟨rfl, -⟩ := Prod.mk.inj hxs
  exact ⟨hsrc, hext x hx⟩

variable {T : List Chunk}

theorem register_node {ctl e : Chunk} (hwf : (Vbuffer.mk (A ++ ctl :: T) e).WF h) :
    vbufferIteratorRegister ⟨A ++ ctl :: T, e⟩ ⟨ctl.id, 0, 0, false⟩ = ⟨ctl.id, 0, 0, true⟩ := by
  obtain ⟨hin, -, -⟩ := inRange_of_cut ⟨ctl.id, 0, 0, false⟩ hwf rfl rfl
    (Nat.zero_le _)
  unfold vbufferIteratorRegister
  rw [if_pos hin.check]

theorem apart_of_ids {a d : Vbuffer} (ha : a.WF h) (hab : a.Apart b)
    (hd : ∀ i ∈ idsOf d.all, i ∈ idsOf b.all ∨ h.next ≤ i) : a.Apart d := by
  intro i hi hm
  rcases hd i hi with hb | hlt
  · exact hab i hb hm
  · obtain ⟨c, hc, rfl⟩ := (mem_idsOf _).1 hm
    have := ha.fresh c hc
    omega

variable {edits : Bool} {holes : List (ℕ × ℕ × ℕ)}
  {pend : List (StreamChunk VbufferSubStreamChunk × List UInt8)}

/-- **Push.** One more place is open. -/
theorem Lent.push {lo hi : ℕ}
    (hl : Lent edits c h s b holes pend) (hfin : vbufferStreamIsfinished s = false)
    (hc : b.Covers data lo hi) (hbehind : BehindNodes s b data) :
    ∃ id x, Lent edits c (vbufferSubStreamPush h s b data).1 (vbufferSubStreamPush h s b data).2.1
      (vbufferSubStreamPush h s b data).2.2.1
      (holes ++ [(id, lo + removed (holes.map Prod.snd), hi + removed (holes.map Prod.snd))])
      (pend ++ [x]) := by
  obtain ⟨h1, A, R, T, e, n, w, hcarved, hn, -, heq⟩ :=
    extract_spec true hl.wf (fun hm : false = true => absurd hm (by simp)) hc
  obtain ⟨h', ctl, sel, hsel, hs, hR⟩ := select_of_carved hcarved hn heq
  obtain ⟨hsrc, hplain⟩ := select_plain hl.plain hsel
  have hkeeps : h.Keeps h' s.data.all := ⟨hs.next, fun x _ => by rw [hs.mem]⟩
  have hfifo := hl.fifo.keeps hkeeps
  have hpush : Pushable true h' s sel :=
    ⟨hs.selWf, apart_of_ids hl.fifo.wf hl.apart hs.selNews, hplain⟩
  obtain ⟨h'', s', current, sc, hpushed, husr, hfr, hfifo'⟩ :=
    push_fifo hfifo hpush hfin (some ⟨⟨ctl.id, 0, 0, true⟩⟩)
  have hresult : vbufferSubStreamPush h s b data = (h'', s', ⟨A ++ ctl :: T, e⟩, some current) := by
    unfold vbufferSubStreamPush
    simp only [hsel, register_node hs.srcWf, hpushed]
  rw [hresult]
  have hvalid := hcarved.wf.valid_body
  rw [hcarved.mem] at hvalid
  have hA : (bytesOf h.mem A).length = lo := by
    rw [hcarved.before, length_take, hl.wf.length_content]
    exact min_eq_left (hc.le.1.trans hc.le.2)
  have hRlen : lo + (bytesOf h.mem R).length = hi := by
    rw [hcarved.range, length_drop, length_take, hl.wf.length_content]
    have := hc.le
    omega
  have hcontent : b.content h = bytesOf h.mem A ++ bytesOf h.mem R ++ bytesOf h.mem T := by
    have htake : (b.content h).take lo = ((b.content h).take hi).take lo := by
      rw [take_take, min_eq_left hc.le.1]
    rw [hcarved.before, hcarved.range, hcarved.after, htake, take_append_drop, take_append_drop]
  have hids : ∀ x ∈ holes, x.1 ∈ itemIds (itemsOf A) := by
    intro x hx
    have hmem : holeData x ∈ s.chunks.map (fun x => x.userdata) := by
      rw [hl.nodes]
      exact mem_map_of_mem hx
    obtain ⟨chunk, hchunk, hu⟩ := mem_map.1 hmem
    rw [hcarved.itemsBefore]
    exact hbehind chunk hchunk _ hu
  have hopened := hl.opened
  rw [← hcarved.items, hcontent] at hopened
  obtain ⟨hnew, hslice⟩ := hopened.push (by simpa using itemIds_nodup hcarved.wf.nodup_body) hids
    (count_itemsOf fun x hx => hvalid x (by simp [hx])) ctl.id hs.isSelect (Nat.zero_le _)
  rw [Nat.zero_add, hA, hRlen] at hnew hslice
  refine ⟨ctl.id, (sc, sel.content h'), hfifo', ?_, ?_, ?_, ?_, ?_, ?_⟩
  · exact hs.srcWf.mono hfr.mem hfr.next
  · intro i hi hm
    rcases hfr.ids i hm with hm | hm | hm
    · exact apart_of_ids hl.fifo.wf hl.apart (d := ⟨A ++ ctl :: T, e⟩) hs.srcNews i hi hm
    · exact hs.apart i hm hi
    · obtain ⟨x, hx, rfl⟩ := (mem_idsOf _).1 hi
      have := hs.srcWf.fresh x hx
      omega
  · rw [hfr.id]
    exact hsrc
  · rw [hfifo'.chunks, map_append, ← hfifo.chunks, map_append, hl.nodes, map_append]
    simp [husr, holeData]
  · have hitems : itemsOf (A ++ ctl :: T) =
        itemsOf A ++ .ctl ctl.id ctl.data :: itemsOf T := by
      simp [Chunk.items, hs.isCtl]
    have hbytes : ctl.bytes h.mem = [] := by
      have hv := hs.srcWf.valid ctl (by simp)
      rw [hs.mem] at hv
      exact hv.bytes_of_ctl hs.isCtl
    show Opened c 0 _ (itemsOf (A ++ ctl :: T)) (bytesOf h''.mem (A ++ ctl :: T))
    rw [hitems, hfr.mem, hs.mem, bytesOf_append, bytesOf_cons, hbytes, nil_append]
    exact hnew
  · intro h0
    rw [map_append, hl.same h0, map_append]
    simp only [map_cons, map_nil, Vbuffer.content, hs.mem, hR, hslice]

/-- **Pushes and edits.** A run of them opens a place for each range. -/
theorem Pushed.lent {h₀ : Heap} {s0 : VbufferSubStream} {b0 : Vbuffer}
    {ranges : List (ℕ × ℕ)} (hf : Fifo true h₀ s0 []) (hb : b0.WF h₀) (ha : s0.data.Apart b0)
    (hp : ∀ x ∈ b0.body, Plain s0.id true x) (hrun : Pushed edits h₀ s0 b0 h s b ranges) :
    ∃ holes pend, holes.map Prod.snd = ranges ∧
      Lent edits (b0.content h₀) h s b holes pend := by
  induction hrun with
  | start => exact ⟨[], [], rfl, hf, hb, ha, hp, by rw [hf.chunks]; rfl, rfl, fun _ => rfl⟩
  | push _ hfin hc hbehind ih =>
    obtain ⟨holes, pend, rfl, hl⟩ := ih
    obtain ⟨id, x, hl'⟩ := hl.push hfin hc hbehind
    exact ⟨_, _, by simp, hl'⟩
  | keep _ hkb hks ih =>
    obtain ⟨holes, pend, rfl, hl⟩ := ih
    refine ⟨holes, pend, rfl, hl.fifo.keeps hks, hl.wf.keeps hkb, hl.apart, hl.plain, hl.nodes, ?_,
      hl.same⟩
    have hopened := hl.opened
    unfold Vbuffer.content at hopened ⊢
    rwa [bytesOf_keeps hkb fun x hx => mem_append_left _ hx]
  | edit _ hedits hkb hdata ha ih =>
    obtain ⟨holes, pend, rfl, hl⟩ := ih
    obtain ⟨pend', hf'⟩ := hdata
    refine ⟨holes, pend', rfl, hf', hl.wf.keeps hkb, ha, hl.plain, hl.nodes, ?_, ?_⟩
    · have hopened := hl.opened
      unfold Vbuffer.content at hopened ⊢
      rwa [bytesOf_keeps hkb fun x hx => mem_append_left _ hx]
    · intro h0
      rw [hedits] at h0
      cases h0

/-! ## Pop -/

/-- The sub that the pop has built stands in the chunks `D` and holds the bytes `done`. -/
def SubAt (m : ℕ → List UInt8) (done : List UInt8) (D : List Chunk) :
    Option (Iterator × Iterator) → Prop
  | none => done = []
  | some (begin, «end») => ∃ P Q S first last, D = P ++ Q ++ S ∧ Q.head? = some first ∧
      Q.getLast? = some last ∧ begin = ⟨first.id, 0, 0, false⟩ ∧
      «end» = ⟨last.id, last.size, 0, false⟩ ∧ bytesOf m Q = done ∧ bytesOf m S = []

variable {done : List UInt8}

/-- A buffer is put back behind the chunks `A` without bytes, if there is a sub already. -/
theorem SubAt.append {sub : Option (Iterator × Iterator)}
    (hs : SubAt m done D sub) (hA : sub ≠ none → bytesOf m A = []) (x : Vbuffer) :
    SubAt m (done ++ bytesOf m x.body) (D ++ A ++ x.body) (poppedSub sub x) := by
  unfold poppedSub vbufferIsempty
  cases hx : x.body with
  | nil =>
    rw [isEmpty_nil, if_pos rfl, bytesOf_nil, append_nil, append_nil]
    cases sub with
    | none => exact hs
    | some p =>
      obtain ⟨P, Q, S, first, last, rfl, hfirst, hlast, hb, he, hQ, hS⟩ := hs
      refine ⟨P, Q, S ++ A, first, last, by simp, hfirst, hlast, hb, he, hQ, ?_⟩
      rw [bytesOf_append, hS, hA (by simp)]
      rfl
  | cons d X =>
    rw [isEmpty_cons, if_neg (by simp), ← hx]
    obtain ⟨last, hlast⟩ : ∃ last, x.body.getLast? = some last := by
      rw [hx]
      exact ⟨_, getLast?_eq_getLast_of_ne_nil (by simp)⟩
    have hbegin : vbufferPosition x 0 (some 0) = ⟨d.id, 0, 0, false⟩ := by
      simp [vbufferPosition, Cut.chunk, hx]
    have hend : vbufferLast x = ⟨last.id, last.size, 0, false⟩ := by
      simp [vbufferLast, hlast]
    cases sub with
    | none =>
      obtain rfl : done = [] := hs
      exact ⟨D ++ A, x.body, [], d, last, by simp, by simp [hx], hlast, hbegin, hend, by simp, rfl⟩
    | some p =>
      obtain ⟨P, Q, S, first, last', rfl, hfirst, -, hb, -, hQ, hS⟩ := hs
      refine ⟨P, Q ++ S ++ A ++ x.body, [], first, last, by simp, ?_, ?_, hb, hend, ?_, rfl⟩
      · cases Q with
        | nil => cases hfirst
        | cons q Q => simpa using hfirst
      · rw [getLast?_append, hlast]
        rfl
      · rw [bytesOf_append, bytesOf_append, bytesOf_append, hQ, hS, hA (by simp)]
        simp

theorem chunk_of_item {I J : List Item} {id : ℕ} {d : Data} (h : itemsOf l = I ++ .ctl id d :: J) :
    ∃ A n T, l = A ++ n :: T ∧ itemsOf A = I ∧ itemsOf T = J ∧ n.id = id ∧ n.data = d ∧
      n.flags.ctl = true := by
  induction l generalizing I with
  | nil => simp at h
  | cons c l ih =>
    rw [itemsOf_cons] at h
    cases hc : c.flags.ctl with
    | true =>
      have hitems : c.items = [.ctl c.id c.data] := by simp [Chunk.items, hc]
      rw [hitems] at h
      cases I with
      | nil =>
        obtain ⟨h1, h2⟩ := cons.inj h
        obtain ⟨hid, hd⟩ := Item.ctl.inj h1
        exact ⟨[], c, l, rfl, rfl, h2, hid, hd, hc⟩
      | cons x I =>
        obtain ⟨rfl, h2⟩ := cons.inj h
        obtain ⟨A, n, T, rfl, rfl, hT, hn⟩ := ih h2
        exact ⟨c :: A, n, T, rfl, by rw [itemsOf_cons, hitems]; rfl, hT, hn⟩
    | false =>
      have hdata : ∀ x ∈ c.items, x ≠ .ctl id d := by
        intro x hx
        unfold Chunk.items at hx
        rw [hc, if_neg (by simp)] at hx
        split_ifs at hx
        · rw [mem_singleton.1 hx]
          simp
        · rw [eq_of_mem_replicate hx]
          simp
      obtain ⟨I', hI, hl⟩ | ⟨J', hcI, hJ⟩ := append_eq_append_iff.1 h
      · obtain ⟨A, n, T, rfl, rfl, hT, hn⟩ := ih hl
        exact ⟨c :: A, n, T, rfl, by rw [itemsOf_cons, hI], hT, hn⟩
      · cases J' with
        | nil =>
          obtain ⟨A, n, T, rfl, hA, hT, hn⟩ := ih (I := []) hJ.symm
          exact ⟨c :: A, n, T, rfl, by rw [itemsOf_cons, hA, hcI, append_nil, append_nil], hT, hn⟩
        | cons x J' =>
          obtain ⟨rfl, -⟩ := cons.inj hJ
          exact absurd rfl (hdata _ (by rw [hcI]; simp))

theorem restore_node {n e : Chunk} {x : Vbuffer} (registered : Bool)
    (hb : (Vbuffer.mk (A ++ n :: T) e).WF h) (hn : n.data.isSelect = true) :
    vbufferRestore h ⟨A ++ n :: T, e⟩ ⟨n.id, 0, 0, registered⟩ (some x) false =
      (h, (vbufferChunkRemoveCtl (A ++ x.body) n T e).toVbuffer, some { x with body := [] },
        true) := by
  obtain ⟨hin, -, -⟩ := inRange_of_cut ⟨n.id, 0, 0, registered⟩ hb rfl rfl
    (Nat.zero_le _)
  have hseek : (Vbuffer.mk (A ++ n :: T) e).seek n.id = ⟨A, n :: T, e⟩ := by
    apply Vbuffer.seek_mk
    intro hm
    have hnd := hb.nodup_body
    rw [idsOf_append, nodup_append] at hnd
    exact hnd.2.2 _ hm _ (by simp) rfl
  unfold vbufferRestore
  rw [if_pos hin.check]
  simp only [hseek, hn, if_true, restoredChunks, Bool.false_eq_true, if_false]

/-- What the loop of a pop keeps: the chunks `D` are done, and `L` has a place for each chunk of the
stream. -/
structure Returning (c : List UInt8) (h : Heap) (s : VbufferSubStream) (b : Vbuffer)
    (D L : List Chunk) (pos : ℕ) (holes : List (ℕ × ℕ × ℕ))
    (pend : List (StreamChunk VbufferSubStreamChunk × List UInt8)) : Prop where
  fifo : Fifo true h s pend
  front : CleanFront s
  clear : s.data.Clear
  wf : b.WF h
  apart : s.data.Apart b
  nodes : s.chunks.map (fun x => x.userdata) = holes.map holeData
  body : b.body = D ++ L
  opened : Opened c pos holes (itemsOf L) (bytesOf h.mem L)

/-- **One round.** The first piece is put back at the first place. -/
theorem Returning.step {pos lo hi id : ℕ}
    (hr : Returning c h s b D L pos ((id, lo, hi) :: holes) pend) :
    ∃ h' s' b' x A L' p pend', pend = p :: pend' ∧
      vbufferStreamPop h s = (h', s', some (x, holeData (id, lo, hi))) ∧
      subStreamRestore h' s' b ⟨id, 0, 0, true⟩ x = (h', s', b') ∧
      bytesOf h'.mem A = (c.take lo).drop pos ∧ bytesOf h'.mem x.body = p.2 ∧
      h'.mem = h.mem ∧ Returning c h' s' b' (D ++ A ++ x.body) L' hi holes pend' := by
  have hchunks := hr.fifo.chunks
  have hnodes := hr.nodes
  cases pend with
  | nil =>
    rw [hchunks] at hnodes
    cases hnodes
  | cons p pend' =>
  rw [hchunks, map_cons, map_cons, map_cons] at hnodes
  obtain ⟨hnode, hothers⟩ := cons.inj hnodes
  obtain ⟨h', s', x, hpop, hfr, hcontent, -, hfifo⟩ := pop_some hr.fifo hr.front hr.clear
  obtain ⟨hx, hfront⟩ := pop_buffer hr.fifo hr.front hpop
  obtain ⟨I, d, J, rest, hitems, hlo, hle, hmax, hd, hbytes, hrest⟩ := hr.opened
  obtain ⟨A, n, T, rfl, rfl, rfl, rfl, rfl, hctl⟩ := chunk_of_item hitems
  have hb : b = ⟨D ++ A ++ n :: T, b.last⟩ := by
    rw [append_assoc, ← hr.body]
  have hwf : (Vbuffer.mk (D ++ A ++ n :: T) b.last).WF h' := by
    rw [← hb]
    exact hr.wf.mono hfr.mem hfr.next
  have hvalid : ∀ y ∈ D ++ A ++ n :: T, y.Valid h.mem := by
    rw [← hfr.mem]
    exact hwf.valid_body
  have hA : bytesOf h.mem A = (c.take lo).drop pos ∧ bytesOf h.mem T = rest := by
    rw [bytesOf_append, bytesOf_cons, (hvalid n (by simp)).bytes_of_ctl hctl, nil_append]
      at hbytes
    refine append_inj hbytes ?_
    rw [← count_itemsOf fun y hy => hvalid y (by simp [hy]), length_drop, length_take]
    omega
  have hapart : (Vbuffer.mk (D ++ A ++ n :: T) b.last).Apart x := by
    rw [← hb]
    intro i hi hm
    rcases hx.ids i hi with hs | hlt
    · exact hr.apart i hm hs
    · obtain ⟨y, hy, rfl⟩ := (mem_idsOf _).1 hm
      have := hr.wf.fresh y hy
      omega
  have hre := remarks_orModified n
  have hin : n.id ∉ idsOf s'.data.all := by
    intro hm
    refine hr.apart n.id ?_ (hfr.ids n.id hm)
    rw [hb]
    simp
  have hrestore : subStreamRestore h' s' b ⟨n.id, 0, 0, true⟩ x =
      (h', s', (vbufferChunkRemoveCtl (D ++ A ++ x.body) n T b.last).toVbuffer) := by
    unfold subStreamRestore
    rw [if_neg hin, hb, restore_node true hwf hd]
  refine ⟨h', s', _, x, A, ((Cut.mk (D ++ A ++ x.body) T b.last).mapChunk
    fun c => c.orModified n).after, p, pend', rfl, ?_, hrestore, ?_, hcontent, hfr.mem, hfifo,
    hfront.cleanFront, hfr.clear hr.clear, ?_, ?_, ?_, ?_, ?_⟩
  · rw [hpop, hnode]
  · rw [hfr.mem]
    exact hA.1
  · exact Cut.mapChunk_wf hre ((restoredChunks_spec false hx.wf).wf hwf hapart)
  · intro i hi hm
    rw [vbufferChunkRemoveCtl, Cut.mapChunk_ids hre] at hi
    by_cases hix : i ∈ idsOf x.body
    · exact hx.apart i (by simp [Vbuffer.all, hix]) hm
    · refine hr.apart i ?_ (hfr.ids i hm)
      rw [hb]
      simp only [Cut.toVbuffer, Vbuffer.all_mk, idsOf_append, idsOf_cons, idsOf_nil,
        mem_append, mem_cons, not_mem_nil, or_false] at hi hix ⊢
      tauto
  · rw [hfifo.chunks]
    exact hothers
  · unfold vbufferChunkRemoveCtl Cut.toVbuffer
    rw [Cut.mapChunk_before]
  · rw [Cut.mapChunk_items hre, Cut.mapChunk_bytes _ hre, hfr.mem, hA.2]
    exact hrest

/-- **The loop.** All pieces are put back; if the ranges adjoin, the sub holds what was put back. -/
theorem Returning.loop {pos : ℕ}
    (hr : Returning c h s b D L pos holes pend) (sub : Option (Iterator × Iterator)) :
    ∃ h' s' b' sub' D' L', subStreamPopLoop pend.length h s b sub = (h', s', b', sub') ∧
      s'.chunks = [] ∧ b'.WF h' ∧ b'.body = D' ++ L' ∧
      b'.content h' = bytesOf h.mem D ++ refill c pos (holes.map Prod.snd) (pend.map Prod.snd) ∧
      ∀ done, SubAt h.mem done D sub → (holes.map Prod.snd).IsChain (fun r r' => r.2 = r'.1) →
        (sub ≠ none → ∀ x ∈ holes.head?, x.2.1 = pos) →
        SubAt h'.mem (done ++ (pend.map Prod.snd).flatten) D' sub' := by
  induction pend generalizing h s b D L pos holes sub with
  | nil =>
    have hchunks : s.chunks = [] := hr.fifo.chunks
    obtain rfl : holes = [] := by
      have hnodes := hr.nodes
      rw [hchunks] at hnodes
      exact map_eq_nil_iff.1 hnodes.symm
    refine ⟨h, s, b, sub, D, L, rfl, hchunks, hr.wf, hr.body, ?_, fun done hsub _ _ => ?_⟩
    · have hopened : bytesOf h.mem L = c.drop pos := hr.opened
      rw [Vbuffer.content, hr.body, bytesOf_append, hopened]
      rfl
    · simpa using hsub
  | cons p pend ih =>
    cases holes with
    | nil =>
      have hnodes := hr.nodes
      rw [hr.fifo.chunks] at hnodes
      cases hnodes
    | cons hole holes =>
    obtain ⟨id, lo, hi⟩ := hole
    obtain ⟨h1, s1, b1, x, A, L1, p', pend', hcons, hpop, hrestore, hA, hx, hmem, hr1⟩ := hr.step
    obtain ⟨rfl, rfl⟩ := cons.inj hcons
    obtain ⟨h', s', b', sub', D', L', hloop, hchunks, hwf, hbody, hcontent, hsub⟩ :=
      ih hr1 (poppedSub sub x)
    refine ⟨h', s', b', sub', D', L', ?_, hchunks, hwf, hbody, ?_, fun done hdone hchain hpos => ?_⟩
    · rw [length_cons, subStreamPopLoop, hpop]
      simp only [holeData, hrestore]
      exact hloop
    · rw [hcontent, bytesOf_append, bytesOf_append, hA, hx, hmem]
      simp [refill]
    · rw [map_cons] at hchain
      have hgap : sub ≠ none → bytesOf h1.mem A = [] := by
        intro h0
        rw [hA, show lo = pos from hpos h0 (id, lo, hi) rfl]
        simp
      rw [hmem] at hgap hx hsub
      have hnext := hdone.append hgap x
      rw [hx] at hnext
      have hadjoins : ∀ y ∈ holes.head?, y.2.1 = hi := by
        intro y hy
        obtain ⟨l, rfl⟩ : ∃ l, holes = y :: l := head?_eq_some_iff.1 hy
        exact (isChain_cons_cons.1 hchain).1.symm
      simpa using hsub _ hnext hchain.tail fun _ => hadjoins

theorem SubAt.covers {begin «end» : Iterator} (hb : b.WF h)
    (hbody : b.body = D ++ L) (hs : SubAt h.mem done D (some (begin, «end»))) :
    ∃ lo hi, b.Covers (.between begin «end») lo hi ∧ ((b.content h).take hi).drop lo = done := by
  obtain ⟨P, Q, S, first, last, rfl, hfirst, hlast, rfl, rfl, hQ, -⟩ := hs
  obtain ⟨Q1, hQ1⟩ := head?_eq_some_iff.1 hfirst
  obtain ⟨Q2, hQ2⟩ := getLast?_eq_some_iff.1 hlast
  obtain ⟨hin, hlo, hfix⟩ := inRange_of_cut (P := P) (Q := Q ++ S ++ L) ⟨first.id, 0, 0, false⟩ hb
    (by simp [hbody]) (by simp [Cut.chunk, hQ1]) (Nat.zero_le _)
  obtain ⟨hin', hhi, hfix'⟩ := inRange_of_cut (P := P ++ Q2) (Q := last :: (S ++ L))
    ⟨last.id, last.size, 0, false⟩ hb (by simp [hbody, hQ2]) rfl (le_refl _)
  have hreach : first.id ∈ b.reach ⟨last.id, last.size, 0, false⟩ := by
    unfold Vbuffer.reach
    rw [hfix']
    cases Q2 with
    | nil =>
      rw [hQ1, nil_append] at hQ2
      obtain ⟨rfl, -⟩ := cons.inj hQ2
      simp [Cut.chunk]
    | cons q Q2 =>
      rw [hQ1] at hQ2
      obtain ⟨rfl, -⟩ := cons.inj hQ2
      simp
  have hsizes : ∀ l : List Chunk, (∀ y ∈ l, y ∈ b.body) → totalSize l = (bytesOf h.mem l).length :=
    fun l hl => (length_bytesOf fun y hy => hb.valid_body y (hl y hy)).symm
  have hP : totalSize P = (bytesOf h.mem P).length := hsizes P fun y hy => by simp [hbody, hy]
  have hQ' : totalSize Q = done.length := by
    rw [← hQ]
    exact hsizes Q fun y hy => by simp [hbody, hy]
  have hend : b.offsetOf ⟨last.id, last.size, 0, false⟩ = totalSize P + totalSize Q := by
    rw [hhi, hQ2]
    simp [Nat.add_assoc]
  refine ⟨_, _, .between hin hin' hreach (by rw [hlo, hend]; simp), ?_⟩
  rw [hlo, hend, hP, hQ', Vbuffer.content, hbody]
  simp [← hQ, take_append]

/-- **Round trip.** After pushes of ranges, each behind the nodes of the earlier ones, and edits, a
pop that nothing blocks gives back all pieces: each range of the outer buffer is replaced by its
piece, and if the ranges adjoin, the sub holds the pieces, in order. -/
theorem sub_stream_round_trip {edits : Bool} {h₀ h : Heap} {s₀ s : VbufferSubStream}
    {b₀ b : Vbuffer} {ranges : List (ℕ × ℕ)} (hf : Fifo true h₀ s₀ []) (hb : b₀.WF h₀)
    (ha : s₀.data.Apart b₀) (hp : ∀ x ∈ b₀.body, Plain s₀.id true x)
    (hrun : Pushed edits h₀ s₀ b₀ h s b ranges) (hfront : CleanFront s) (hclear : s.data.Clear) :
    ∃ h' s' b' sub, vbufferSubStreamPop h s b = (h', s', b', sub) ∧ s'.chunks = [] ∧
      b'.content h' = refill (b₀.content h₀) 0 ranges (s.pieces h) ∧
      (edits = false → b'.content h' = b₀.content h₀) ∧
      (ranges.IsChain (fun r r' => r.2 = r'.1) → (sub = none → (s.pieces h).flatten = []) ∧
        ∀ x, sub = some x → ∃ lo hi, b'.Covers x lo hi ∧
          ((b'.content h').take hi).drop lo = (s.pieces h).flatten) := by
  obtain ⟨holes, pend, rfl, hl⟩ := hrun.lent hf hb ha hp
  have hr : Returning (b₀.content h₀) h s b [] b.body 0 holes pend :=
    ⟨hl.fifo, hfront, hclear, hl.wf, hl.apart, hl.nodes, rfl, hl.opened⟩
  obtain ⟨h', s', b', sub, D, L, hloop, hchunks, hwf, hbody, hcontent, hsub⟩ := hr.loop none
  have hpieces := hl.fifo.pieces
  rw [← hpieces, bytesOf_nil, nil_append] at hcontent
  have hlen : s.chunks.length = pend.length := by rw [hl.fifo.chunks, length_map]
  refine ⟨h', s', b', sub.map fun p => .between p.1 p.2, ?_, hchunks, hcontent, fun h0 => ?_,
    fun hchain => ?_⟩
  · unfold vbufferSubStreamPop
    rw [hlen, hloop]
  · rw [hcontent, hpieces, hl.same h0, hl.opened.refill, drop_zero]
  · have hat := hsub [] rfl hchain fun h0 => absurd rfl h0
    rw [nil_append, ← hpieces] at hat
    cases sub with
    | none => exact ⟨fun _ => hat, nofun⟩
    | some p =>
      refine ⟨nofun, fun x hx => ?_⟩
      obtain rfl := Option.some.inj hx
      exact SubAt.covers hwf hbody hat

/-! ## Examples -/

/-- A new sub stream, in the heap of `helloBuffer`. -/
def helloStream : Heap × VbufferSubStream := vbufferStreamInit helloHeap

/-- The heap, the stream and the outer buffer after a push of a sub made by `vbuffer_sub_create`. -/
def pushSub (σ : Heap × VbufferSubStream × Vbuffer) (offset length : ℕ) :
    Heap × VbufferSubStream × Vbuffer :=
  let r := vbufferSubStreamPush σ.1 σ.2.1 σ.2.2 (vbufferSubCreate σ.2.2 offset (some length))
  (r.1, r.2.1, r.2.2.1)

/-- The ranges `he` and `lo` of `hello` are pushed. -/
def twoPushes : Heap × VbufferSubStream × Vbuffer :=
  pushSub (pushSub (helloStream.1, helloStream.2, helloBuffer) 0 2) 1 2

/-- They come back where they were. -/
theorem sub_stream_round_trip_hello : ∃ h' s' b' sub,
    vbufferSubStreamPop twoPushes.1 twoPushes.2.1 twoPushes.2.2 = (h', s', b', sub) ∧
      b'.content h' = [104, 101, 108, 108, 111] := by
  have hwf : helloBuffer.WF helloStream.1 := helloBuffer_wf.mono rfl (by decide)
  have hfirst : Pushed false helloStream.1 helloStream.2 helloBuffer
      (pushSub (helloStream.1, helloStream.2, helloBuffer) 0 2).1
      (pushSub (helloStream.1, helloStream.2, helloBuffer) 0 2).2.1
      (pushSub (helloStream.1, helloStream.2, helloBuffer) 0 2).2.2 [(0, 2)] :=
    .push .start rfl (subCreate_covers 0 2 hwf) (by decide +kernel)
  have hplain : ∀ x ∈ helloBuffer.body, Plain helloStream.2.id true x := by decide
  have hapart : helloStream.2.data.Apart helloBuffer := by decide
  obtain ⟨holes, pend, -, hl⟩ := hfirst.lent (init_fifo _) hwf hapart hplain
  have hboth : Pushed false helloStream.1 helloStream.2 helloBuffer twoPushes.1 twoPushes.2.1
      twoPushes.2.2 [(0, 2), (3, 5)] := by
    have hpush := hfirst.push (by decide +kernel) (subCreate_covers 1 2 hl.wf) (by decide +kernel)
    exact hpush
  obtain ⟨h', s', b', sub, hpop, -, -, hsame, -⟩ := sub_stream_round_trip (init_fifo _) hwf hapart
    hplain hboth (by decide +kernel) (by decide +kernel)
  exact ⟨h', s', b', sub, hpop, (hsame rfl).trans (by decide)⟩

/-- The ranges `he` and `llo` of `hello` are pushed, the second with the node of the first, and `X`
is inserted where the second push says. -/
def insertedPushes : Heap × VbufferSubStream × Vbuffer :=
  let σ := pushSub (helloStream.1, helloStream.2, helloBuffer) 0 2
  let r := vbufferSubStreamPush σ.1 σ.2.1 σ.2.2 (vbufferSubCreate σ.2.2 0 (some 3))
  let x := vbufferCreateFrom r.1 [88]
  let current := r.2.2.2.getD (vbufferPosition r.2.1.data 0 none)
  let i := vbufferIteratorInsert x.1 r.2.1.data current x.2
  (i.heap, { r.2.1 with data := i.buffer }, r.2.2.1)

/-- What goes wrong: without a read-write mark in the stream, the pieces are `he` and `Xllo`, but
what comes back is `Xhello`. -/
theorem sub_stream_misplaces :
    insertedPushes.2.1.pieces insertedPushes.1 = [[104, 101], [88, 108, 108, 111]] ∧
      (insertedPushes.2.1.data.all.all fun c => c.data.isSelect || !c.data.blocks) = true ∧
      refill (helloBuffer.content helloHeap) 0 [(0, 2), (2, 5)]
        (insertedPushes.2.1.pieces insertedPushes.1) = [104, 101, 88, 108, 108, 111] ∧
      let r := vbufferSubStreamPop insertedPushes.1 insertedPushes.2.1 insertedPushes.2.2
      r.2.1.chunks.length = 0 ∧ r.2.2.1.content r.1 = [88, 104, 101, 108, 108, 111] :=
  ⟨by decide +kernel, by decide +kernel, by decide +kernel, by decide +kernel, by decide +kernel⟩

end Haka
