import Haka.Stream.Nodes

/-!
# A pop never gives retained data

A read-write mark or a select node on data that was not popped yet holds this data back: a pop
that would have to go over it is refused. What a pop does follows from the state before it
(`Retains`): it succeeds exactly when the first pending buffer holds no such node, it then gives
the bytes of this buffer, and a refused pop leaves what is pending, with its push nodes and marks.
A node on pending data stays on pending data until it is removed, over any run of pushes, pops,
marks, selections and restorations.
-/

namespace Haka

open List Machine

variable {υ : Type}

/-! ## Left-over end nodes -/

/-- Chunks without their flags and without the left-over end nodes of the stream. -/
def shown (sid : ℕ) (l : List Chunk) : List Chunk := (view l).filter fun c => !c.data.isLeftOver sid

section Shown

variable {sid : ℕ} {a b l l' : List Chunk} {c : Chunk}

@[simp] theorem shown_append : shown sid (a ++ b) = shown sid a ++ shown sid b := by
  simp [shown]

@[simp] theorem shown_nil : shown sid [] = [] := rfl

theorem shown_of_view (h : view a = view b) : shown sid a = shown sid b := by
  simp [shown, h]

theorem shown_cons_leftOver (hc : c.data.isLeftOver sid = true) : shown sid (c :: l) = shown sid l := by
  simp [shown, hc]

theorem shown_singleton (hc : c.data.isLeftOver sid = false) : shown sid [c] = [c.core] := by
  simp [shown, hc]

variable {d : Data}

theorem isLeftOver_of_isOwn (hd : d.isOwn sid = true) : d.isLeftOver sid = false := by
  cases d with
  | push a t k =>
    simp only [Data.isOwn, Bool.and_eq_true, Option.isSome_iff_exists] at hd
    obtain ⟨-, k, rfl⟩ := hd
    simp [Data.isLeftOver]
  | _ => rfl

theorem isControl_of_isLeftOver (hd : d.isLeftOver sid = true) : d.isControl = true := by
  cases d <;> first | rfl | simp [Data.isLeftOver] at hd

variable {p : Data → Bool}

theorem filter_ctlsOf_shown (hp : ∀ d, p d = true → d.isLeftOver sid = false) :
    (ctlsOf (shown sid l)).filter (fun x => p x.2) = (ctlsOf l).filter fun x => p x.2 := by
  unfold shown
  rw [← ctlsOf_view l]
  induction view l with
  | nil => rfl
  | cons c l ih =>
    cases hc : c.data.isLeftOver sid with
    | false =>
      rw [filter_cons_of_pos (by simp [hc])]
      cases hctl : c.flags.ctl with
      | true => simp [ctlsOf_cons_ctl _ _ hctl, filter_cons, ih]
      | false => rw [ctlsOf_cons_data _ _ hctl, ctlsOf_cons_data _ _ hctl, ih]
    | true =>
      have hpc : p c.data = false := by
        by_contra hne
        simp [hp c.data (by simpa using hne)] at hc
      rw [filter_cons_of_neg (by simp [hc]), ih]
      cases hctl : c.flags.ctl with
      | true => rw [ctlsOf_cons_ctl _ _ hctl, filter_cons_of_neg (by simp [hpc])]
      | false => rw [ctlsOf_cons_data _ _ hctl]

theorem filter_ctlsOf_congr (h : shown sid l = shown sid l')
    (hp : ∀ d, p d = true → d.isLeftOver sid = false) :
    (ctlsOf l).filter (fun x => p x.2) = (ctlsOf l').filter fun x => p x.2 := by
  rw [← filter_ctlsOf_shown hp, h, filter_ctlsOf_shown hp]

theorem bytesOf_shown {m : ℕ → List UInt8} (hv : ∀ c ∈ l, c.Valid m) (ht : ∀ c ∈ l, c.Typed) :
    bytesOf m (shown sid l) = bytesOf m l := by
  induction l with
  | nil => rfl
  | cons c l ih =>
    obtain ⟨hvc, hvl⟩ := forall_mem_cons.1 hv
    obtain ⟨htc, htl⟩ := forall_mem_cons.1 ht
    rw [bytesOf_cons, ← ih hvl htl]
    cases hc : c.data.isLeftOver sid with
    | true =>
      have hnil : c.bytes m = [] := hvc.bytes_of_ctl (htc (isControl_of_isLeftOver hc))
      rw [shown_cons_leftOver hc, hnil]
      rfl
    | false =>
      rw [← singleton_append, shown_append, shown_singleton hc, bytesOf_append]
      simp [Chunk.bytes, Chunk.core]

end Shown

/-! ## The read part -/

section ReadPart

variable {sid : ℕ} {l R B : List Chunk} {reads : List (StreamChunk υ)}

theorem own_split {X Y : List (ℕ × Data)} {x : ℕ × Data}
    (h : ownNodes sid (ctlsOf l) = X ++ x :: Y) :
    ∃ A n D, l = A ++ n :: D ∧ n.flags.ctl = true ∧ (n.id, n.data) = x ∧
      ownNodes sid (ctlsOf A) = X ∧ ownNodes sid (ctlsOf D) = Y := by
  induction l generalizing X with
  | nil => simp at h
  | cons c l ih =>
    by_cases hc : c.flags.ctl = true ∧ c.data.isOwn sid = true
    · have hcons : ∀ t, ownNodes sid (ctlsOf (c :: t)) = (c.id, c.data) :: ownNodes sid (ctlsOf t) :=
        fun t => by simp [ctlsOf_cons_ctl _ _ hc.1, ownNodes, hc.2]
      rw [hcons] at h
      cases X with
      | nil =>
        obtain ⟨hx, hY⟩ := cons.inj h
        exact ⟨[], c, l, rfl, hc.1, hx, rfl, hY⟩
      | cons y X =>
        obtain ⟨hy, hX⟩ := cons.inj h
        obtain ⟨A, n, D, rfl, hn, hnx, hA, hD⟩ := ih hX
        exact ⟨c :: A, n, D, rfl, hn, hnx, by rw [hcons, hA, hy], hD⟩
    · have hcons : ∀ t, ownNodes sid (ctlsOf (c :: t)) = ownNodes sid (ctlsOf t) := by
        intro t
        cases hctl : c.flags.ctl with
        | false => rw [ctlsOf_cons_data _ _ hctl]
        | true =>
          have hno : c.data.isOwn sid = false := by simpa [hctl] using hc
          simp [ctlsOf_cons_ctl _ _ hctl, ownNodes, hno]
      rw [hcons] at h
      obtain ⟨A, n, D, rfl, hn, hnx, hA, hD⟩ := ih h
      exact ⟨c :: A, n, D, rfl, hn, hnx, by rw [hcons, hA], hD⟩

/-- The part of the data that was read: its push nodes are those of the read chunks, and it ends
with the last of them. -/
structure ReadPart (sid : ℕ) (reads : List (StreamChunk υ)) (R : List Chunk) : Prop where
  nodes : ownNodes sid (ctlsOf R) = reads.map (StreamChunk.node sid)
  last : ∀ n, R.getLast? = some n → n.flags.ctl = true ∧ n.data.isOwn sid = true
  typed : ∀ c ∈ R, c.Typed

theorem ReadPart.nil_iff (hR : ReadPart sid reads R) : R = [] ↔ reads = [] := by
  constructor
  · rintro rfl
    simpa using hR.nodes.symm
  · intro h0
    rcases eq_nil_or_concat R with h1 | ⟨A, n, h1⟩
    · exact h1
    · have hn := hR.last n (by simp [h1])
      have hnodes := hR.nodes
      rw [h0, h1] at hnodes
      simp [ctlsOf_cons_ctl _ _ hn.1, ownNodes, hn.2] at hnodes

theorem ReadPart.getLast (hR : ReadPart sid reads R) {r : StreamChunk υ}
    (hr : reads.getLast? = some r) : ∃ A n, R = A ++ [n] ∧ (n.id, n.data) = r.node sid := by
  rcases eq_nil_or_concat R with h1 | ⟨A, n, h1⟩
  · rw [hR.nil_iff.1 h1] at hr
    simp at hr
  · refine ⟨A, n, by rw [h1, concat_eq_append], ?_⟩
    have hn := hR.last n (by simp [h1])
    obtain ⟨rs, rfl⟩ := getLast?_eq_some_iff.1 hr
    have hnodes := hR.nodes
    have hone : ownNodes sid (ctlsOf [n]) = [(n.id, n.data)] := by
      simp [ctlsOf_cons_ctl _ _ hn.1, ownNodes, hn.2]
    rw [h1, concat_eq_append, ctlsOf_append, ownNodes_append, hone, map_append] at hnodes
    simpa using (append_inj' hnodes rfl).2

theorem ReadPart.tail {c : Chunk} {reads' : List (StreamChunk υ)} (hR : ReadPart sid reads (c :: R))
    (hn : ownNodes sid (ctlsOf R) = reads'.map (StreamChunk.node sid)) : ReadPart sid reads' R := by
  refine ⟨hn, fun n h0 => hR.last n ?_, fun d hd => hR.typed d (by simp [hd])⟩
  cases R with
  | nil => simp at h0
  | cons d R => simpa using h0

/-- **Erasure.** Without other push node before the first mark, the erasure takes a front of the
read part and the read chunks of its push nodes. -/
theorem cleanup_read (hR : ReadPart sid reads R)
    (hfront : ∀ c ∈ R.takeWhile (fun c => !c.data.isMark),
      c.data.isPush = true → c.data.isOwn sid = true) (B : List Chunk) :
    ∃ E R' reads', _vbufferStreamCleanup (R ++ B) reads = (R' ++ B, reads') ∧ R = E ++ R' ∧
      ReadPart sid reads' R' ∧ (∀ c ∈ E, c.data.isMark = false) ∧
      (∀ r, reads'.getLast? = some r → reads.getLast? = some r) ∧
      ((∀ c ∈ R.head?, c.data.isMark = true) → E = []) := by
  induction R generalizing reads with
  | nil =>
    obtain rfl := hR.nil_iff.1 rfl
    refine ⟨[], [], [], ?_, rfl, hR, by simp, fun _ h0 => h0, fun _ => rfl⟩
    cases B <;> rfl
  | cons c R ih =>
    cases reads with
    | nil => exact absurd (hR.nil_iff.2 rfl) (by simp)
    | cons r reads =>
      rw [cons_append]
      by_cases hm : c.data.isMark = true
      · refine ⟨[], c :: R, r :: reads, ?_, rfl, hR, by simp, fun _ h0 => h0, fun _ => rfl⟩
        rw [_vbufferStreamCleanup, if_pos hm]
        rfl
      have hhead : (∀ d ∈ (c :: R).head?, d.data.isMark = true) → False := fun h0 => hm (h0 c rfl)
      have hfront' : ∀ d ∈ c :: R.takeWhile (fun c => !c.data.isMark),
          d.data.isPush = true → d.data.isOwn sid = true := by
        rw [takeWhile_cons_of_pos (by simp [hm])] at hfront
        exact hfront
      have hrest := fun d hd => hfront' d (mem_cons_of_mem _ hd)
      have hE : ∀ E : List Chunk, (∀ d ∈ E, d.data.isMark = false) →
          ∀ d ∈ c :: E, d.data.isMark = false := fun E hE =>
        forall_mem_cons.2 ⟨by simpa using hm, hE⟩
      rw [_vbufferStreamCleanup, if_neg hm]
      by_cases hpush : c.data.isPush = true
      · rw [if_pos hpush]
        have hown := hfront' c (by simp) hpush
        have hctl := hR.typed c (by simp) (isControl_of_isOwn hown)
        have hnodes := hR.nodes
        rw [ctlsOf_cons_ctl _ _ hctl, ownNodes, filter_cons_of_pos (by simpa using hown),
          map_cons] at hnodes
        obtain ⟨E, R', reads', heq, rfl, hR', hmark, hlast, -⟩ :=
          ih (hR.tail (cons.inj hnodes).2) hrest
        refine ⟨c :: E, R', reads', heq, rfl, hR', hE E hmark, fun r' hr' => ?_,
          fun h0 => (hhead h0).elim⟩
        obtain ⟨rs, hrs⟩ := getLast?_eq_some_iff.1 (hlast r' hr')
        rw [hrs, ← cons_append, getLast?_append]
        rfl
      · rw [if_neg hpush]
        have hno : c.data.isOwn sid = false := by
          cases hd : c.data <;> first | rfl | simp [hd, Data.isPush] at hpush
        have hnodes : ownNodes sid (ctlsOf R) = (r :: reads).map (StreamChunk.node sid) := by
          rw [← hR.nodes]
          cases hctl : c.flags.ctl with
          | false => rw [ctlsOf_cons_data _ _ hctl]
          | true => simp [ctlsOf_cons_ctl _ _ hctl, ownNodes, hno]
        obtain ⟨E, R', reads', heq, rfl, hR', hmark, hlast, -⟩ := ih (hR.tail hnodes) hrest
        exact ⟨c :: E, R', reads', heq, rfl, hR', hE E hmark, hlast, fun h0 => (hhead h0).elim⟩

theorem begin_read {h : Heap} {last : Chunk} (hR : ReadPart sid reads R)
    (hwf : (Vbuffer.mk (R ++ B) last).WF h) : popBegin ⟨R ++ B, last⟩ reads = (R, B) := by
  unfold popBegin
  cases hr : reads.getLast? with
  | none =>
    obtain rfl := hR.nil_iff.2 (getLast?_eq_none_iff.1 hr)
    rfl
  | some r =>
    obtain ⟨A, n, rfl, hn⟩ := hR.getLast hr
    obtain ⟨hid, -⟩ := Prod.mk.inj hn
    have hnot : n.id ∉ idsOf A := by
      have := hwf.nodup_body
      simp only [idsOf_append, idsOf_cons, idsOf_nil, append_assoc, nodup_append,
        cons_append] at this
      exact fun hm => this.2.2 _ hm _ (by simp) rfl
    dsimp only
    rw [← hid, append_assoc, singleton_append, Vbuffer.seek_mk hnot]
    rfl

end ReadPart

/-! ## The first pending buffer -/

def VbufferStream.firstPending (s : VbufferStream υ) : List Chunk :=
  match s.chunks with
  | [] => []
  | sc :: _ => s.pending.takeWhile fun c => c.id ≠ sc.ctlIter

def VbufferStream.laterPending (s : VbufferStream υ) : List Chunk :=
  match s.chunks with
  | [] => s.pending
  | sc :: _ => behind Chunk.id sc.ctlIter s.pending

/-- The data of a stream: the read part `R`, the first pending buffer `X` with its push node `n`,
and what is behind it. -/
structure Parted (s : VbufferStream υ) (sc : StreamChunk υ) (chunks : List (StreamChunk υ))
    (R X : List Chunk) (n : Chunk) (Y : List Chunk) : Prop where
  all : s.data.all = R ++ (X ++ n :: Y)
  read : ReadPart s.id s.readChunks R
  node : IsNode s.id sc n
  first : ownNodes s.id (ctlsOf X) = []
  later : ownNodes s.id (ctlsOf Y) = chunks.map (StreamChunk.node s.id)

section Parted

variable {h : Heap} {s : VbufferStream υ} {sc : StreamChunk υ} {chunks : List (StreamChunk υ)}
  {R X Y : List Chunk} {n : Chunk}

theorem Noded.parted (hn : Noded h s) (hc : s.chunks = sc :: chunks) :
    ∃ R X n Y, Parted s sc chunks R X n Y := by
  have hnodes := hn.nodes
  rw [hc, map_append, map_cons] at hnodes
  obtain ⟨A, n, Y, hall, hctl, hnode, hA, hY⟩ := own_split hnodes
  obtain ⟨hid, hdata⟩ := Prod.mk.inj hnode
  have htyped : ∀ c ∈ A, c.Typed := fun c hc => hn.typed c (by rw [hall]; simp [hc])
  rcases eq_nil_or_concat s.readChunks with hr | ⟨rs, r, hr⟩
  · refine ⟨[], A, n, Y, hall, ⟨by simp [hr], by simp, by simp⟩, ⟨hid, hctl, hdata⟩, ?_, hY⟩
    simpa [hr] using hA
  · have hA' : ownNodes s.id (ctlsOf A) = rs.map (StreamChunk.node s.id) ++ r.node s.id :: [] := by
      simpa [hr] using hA
    obtain ⟨D, m, X, rfl, hm, hmr, hD, hX⟩ := own_split hA'
    refine ⟨D ++ [m], X, n, Y, by simp [hall], ⟨?_, fun k hk => ?_, fun c hc => htyped c ?_⟩,
      ⟨hid, hctl, hdata⟩, hX, hY⟩
    · have hone : ownNodes s.id (ctlsOf [m]) = [r.node s.id] := by
        simp [ctlsOf_cons_ctl _ _ hm, hmr, ownNodes, StreamChunk.node, Data.isOwn]
      rw [ctlsOf_append, ownNodes_append, hD, hone, hr]
      simp
    · obtain rfl : m = k := by simpa using hk
      obtain ⟨-, hmd⟩ := Prod.mk.inj hmr
      exact ⟨hm, by simp [hmd, Data.isOwn]⟩
    · simp only [mem_append, mem_cons] at hc ⊢
      tauto

theorem ReadPart.pending {Z : List Chunk} (hR : ReadPart s.id s.readChunks R)
    (hall : s.data.all = R ++ Z) (hnd : (idsOf s.data.all).Nodup) : s.pending = Z := by
  unfold VbufferStream.pending pendingFrom
  cases hr : s.readChunks.getLast? with
  | none =>
    obtain rfl := hR.nil_iff.2 (getLast?_eq_none_iff.1 hr)
    exact hall
  | some r =>
    obtain ⟨A, m, rfl, hm⟩ := hR.getLast hr
    obtain ⟨hid, -⟩ := Prod.mk.inj hm
    rw [hall, append_assoc, singleton_append] at hnd
    rw [hall, append_assoc, singleton_append]
    refine behind_append_cons hid fun y hy hyr => ?_
    rw [idsOf_append, nodup_append] at hnd
    exact hnd.2.2 y.id (mem_map_of_mem hy) m.id (by simp) (hyr.trans hid.symm)

section

variable (hp : Parted s sc chunks R X n Y) (hn : Noded h s)

include hp hn

theorem Parted.pending :
    s.pending = X ++ n :: Y :=
  hp.read.pending hp.all hn.wf.nodup

theorem Parted.notMem :
    ∀ c ∈ R ++ X, c.id ≠ sc.ctlIter := by
  intro c hc hid
  have hnd := hn.wf.nodup
  rw [hp.all, ← append_assoc, idsOf_append, nodup_append] at hnd
  exact hnd.2.2 c.id (mem_map_of_mem hc) n.id (by simp) (hid.trans hp.node.id.symm)

theorem Parted.firstPending
    (hc : s.chunks = sc :: chunks) : s.firstPending = X := by
  unfold VbufferStream.firstPending
  rw [hc, hp.pending hn]
  have hX : ∀ c ∈ X, (decide (c.id ≠ sc.ctlIter)) = true := fun c hc => by
    simpa using hp.notMem hn c (mem_append_right _ hc)
  dsimp only
  rw [takeWhile_append_of_pos hX, takeWhile_cons_of_neg (by simp [hp.node.id]), append_nil]

theorem Parted.laterPending
    (hc : s.chunks = sc :: chunks) : s.laterPending = Y := by
  unfold VbufferStream.laterPending
  rw [hc, hp.pending hn]
  exact behind_append_cons hp.node.id fun c hc => hp.notMem hn c (mem_append_right _ hc)

end

theorem Parted.body (hp : Parted s sc chunks R X n Y) :
    ∃ B, s.data.body = R ++ B ∧ B ++ [s.data.last] = X ++ n :: Y := by
  have hall := hp.all
  rcases eq_nil_or_concat (X ++ n :: Y) with h0 | ⟨B, e, h0⟩
  · simp at h0
  · rw [h0, concat_eq_append, ← append_assoc] at hall
    obtain ⟨hb, he⟩ := append_inj' hall rfl
    obtain rfl : s.data.last = e := by simpa using he
    exact ⟨B, hb, by rw [h0, concat_eq_append]⟩

end Parted

/-! ## The scan -/

section Scan

variable {sid : ℕ} {target : Data} {left modified keep : Bool} {moved kept rest X Y : List Chunk}
  {chunk last n : Chunk}

theorem filter_dropLeft (l : List Chunk) : ((dropLeft sid left l).filter fun c =>
    !c.data.isLeftOver sid) = l.filter fun c => !c.data.isLeftOver sid := by
  unfold dropLeft
  split
  · rfl
  rcases exists_or_eq_self_of_eraseP (Chunk.isLeftOver sid) l with heq | ⟨a, A, B, -, ha, rfl, heq⟩
  · rw [heq]
  · rw [heq]
    simp [(Bool.and_eq_true_iff.1 ha).2]

/-- **Scan.** The scan goes over a buffer without node that blocks, up to its push node, and stops
in one with such a node; the chunks stay as they were. -/
theorem popScan_first (hn : n.data = target) (hX : ∀ c ∈ X, c.data ≠ target ∧ c.Typed)
    (hrest : rest ++ [last] = X ++ n :: Y) (hk : keep = false → kept = []) {r : PopScan}
    (hr : r = popScan sid target left modified keep moved kept rest last) :
    (r.found = true ∧ (∀ c ∈ X, c.data.blocks = false) ∧
      shown sid (r.moved ++ r.kept) = shown sid (moved ++ kept ++ X) ∧
      view (r.after ++ [r.last]) = view (n :: Y)) ∨
    (r.found = false ∧ (∃ c ∈ X, c.data.blocks = true) ∧
      shown sid (r.moved ++ r.kept ++ r.after ++ [r.last]) =
        shown sid (moved ++ kept ++ (X ++ n :: Y))) := by
  have hv : view (rest ++ [last]) = view X ++ n.core :: view Y := by
    rw [hrest]
    simp
  have hX' : ∀ c ∈ view X, c.data ≠ target := by
    intro c hc
    obtain ⟨d, hd, rfl⟩ := mem_map.1 hc
    exact (hX d hd).1
  rcases popScan_over (n := n.core) hn hX' hv hk hr with
    ⟨hf, hb, hmk, ha⟩ | ⟨hf, X1, b, X2, hX1, hb, hst⟩
  · refine .inl ⟨hf, fun c hc => ?_, ?_, ha⟩
    · have hcb := hb c.core (mem_map_of_mem hc)
      cases hbl : c.data.blocks with
      | false => rfl
      | true => simp [hbl, (hX c hc).2 (isControl_of_blocks hbl)] at hcb
    · rw [shown, hmk, filter_append, filter_dropLeft, ← filter_append, ← view_append, shown]
  · refine .inr ⟨hf, ?_, ?_⟩
    · obtain ⟨c, hc, rfl⟩ := mem_map.1 (show b ∈ view X by simp [hX1])
      exact ⟨c, hc, hb⟩
    · have hall : X1 ++ (b :: X2 ++ n.core :: view Y) = view (X ++ n :: Y) := by
        simp [hX1]
      rw [shown, hst, filter_append, filter_append, filter_dropLeft, append_assoc, ← filter_append,
        hall, ← filter_append, ← view_append, shown]

end Scan

/-! ## Pop -/

/-- Every push node the erasure may meet is one of the stream: in the read part, before the first
mark. -/
def OwnFront (s : VbufferStream υ) : Prop :=
  ∀ r ∈ s.readChunks.getLast?, ∀ c ∈ (s.data.body.takeWhile fun c => c.id ≠ r.ctlIter).takeWhile
    (fun c => !c.data.isMark), c.data.isPush = true → c.data.isOwn s.id = true

instance (s : VbufferStream υ) : Decidable (OwnFront s) :=
  inferInstanceAs (Decidable (∀ r ∈ s.readChunks.getLast?, ∀ c ∈ _, _ → _))

/-- There is nothing for a pop to erase: no data was kept for readers, or it begins with a mark. -/
def NothingRead (s : VbufferStream υ) : Prop :=
  s.readChunks ≠ [] → ∀ c ∈ s.data.body.head?, c.data.isMark = true

instance (s : VbufferStream υ) : Decidable (NothingRead s) :=
  inferInstanceAs (Decidable (s.readChunks ≠ [] → _))

/-- A refused pop: the front of the read part that it erases, and the stream it leaves. -/
structure Refused (h : Heap) (s : VbufferStream υ) (erased : List Chunk) (h' : Heap)
    (s' : VbufferStream υ) : Prop where
  mem : h'.mem = h.mem
  chunks : s'.chunks = s.chunks
  pending : shown s.id s'.pending = shown s.id s.pending
  marks : (ctlsOf s'.data.all).filter (fun x => x.2.isMark) =
    (ctlsOf s.data.all).filter fun x => x.2.isMark
  content : s.data.content h = bytesOf h.mem erased ++ s'.data.content h'
  nothing : NothingRead s → erased = []

/-- A pop that gives the buffer `b`. -/
structure Given (h : Heap) (s : VbufferStream υ) (h' : Heap) (s' : VbufferStream υ) (b : Vbuffer) :
    Prop where
  mem : h'.mem = h.mem
  chunks : s'.chunks = s.chunks.tail
  content : b.content h' = bytesOf h.mem s.firstPending
  pending : shown s.id s'.pending = shown s.id s.laterPending

section Pop

variable {h : Heap} {s : VbufferStream υ} {sc : StreamChunk υ} {chunks reads : List (StreamChunk υ)}
  {E R X Y : List Chunk} {n : Chunk} {r : PopScan}

/-- The stream after the scan of a pop: the read part `R` that is left, with its read chunks, and the
chunks the scan has sorted. -/
structure Sorted (h : Heap) (s : VbufferStream υ) (reads : List (StreamChunk υ)) (R : List Chunk)
    (r : PopScan) : Prop extends ScanParts h s reads R r where
  noded : Noded h s
  read : ReadPart s.id reads R

variable {l : List Chunk}

theorem Noded.typed_of_view (hn : Noded h s)
    (hl : (view l).Sublist (view s.data.all)) : ∀ c ∈ l, c.Typed := by
  intro c hc
  obtain ⟨d, hd, he⟩ : ∃ d ∈ s.data.all, d.core = c.core := by
    simpa only [view, mem_map] using hl.subset (mem_map_of_mem hc)
  exact (hn.typed d hd).of_core he

theorem ownNodes_of_shown {sid : ℕ} {l' : List Chunk} (h : shown sid l = shown sid l') :
    ownNodes sid (ctlsOf l) = ownNodes sid (ctlsOf l') :=
  filter_ctlsOf_congr h fun _ hd => isLeftOver_of_isOwn hd

theorem Parted.own (hp : Parted s sc chunks R X n Y) :
    ownNodes s.id (ctlsOf (X ++ n :: Y)) = (sc :: chunks).map (StreamChunk.node s.id) := by
  have hone : ownNodes s.id (ctlsOf [n]) = [sc.node s.id] := by
    simp [ctlsOf_cons_ctl _ _ hp.node.ctl, ownNodes, hp.node.data, hp.node.id, StreamChunk.node,
      Data.isOwn]
  rw [← singleton_append, ctlsOf_append, ctlsOf_append, ownNodes_append, ownNodes_append,
    hp.first, hone, hp.later]
  rfl

/-- A refused pop leaves the chunks it has sorted, in order. -/
theorem refused_spec (hs : Sorted h s reads R r) {A : List Chunk}
    (hp : Parted s sc chunks (E ++ R) X n Y) (hc : s.chunks = sc :: chunks)
    (hE : ∀ c ∈ E, c.data.isMark = false) (hnothing : NothingRead s → E = [])
    (hsh : shown s.id (r.moved ++ r.kept ++ r.after ++ [r.last]) = shown s.id (X ++ n :: Y))
    (hA : A = r.moved ++ r.kept ++ r.after) :
    Noded h { s with data := ⟨R ++ A, r.last⟩, readChunks := reads } ∧
      Refused h s E h { s with data := ⟨R ++ A, r.last⟩, readChunks := reads } := by
  subst hA
  have hn := hs.noded
  have hwf := hs.wf_part (List.Sublist.refl _)
  have htyped := hn.typed_of_view (hs.sublist (List.Sublist.refl _))
  set s' : VbufferStream υ := { s with
    data := ⟨R ++ (r.moved ++ r.kept ++ r.after), r.last⟩, readChunks := reads } with hs'
  have hall : s'.data.all = R ++ (r.moved ++ r.kept ++ r.after ++ [r.last]) := by
    simp [hs', Vbuffer.all]
  have hpend : s'.pending = r.moved ++ r.kept ++ r.after ++ [r.last] :=
    ReadPart.pending hs.read hall hwf.nodup
  have hbytes : bytesOf h.mem s'.pending = bytesOf h.mem (X ++ n :: Y) := by
    have hv : ∀ c ∈ s'.pending, c.Valid h.mem := fun c hc => hwf.valid c (by
      rw [hpend] at hc
      rw [hall]
      exact mem_append_right _ hc)
    have ht : ∀ c ∈ s'.pending, c.Typed := fun c hc => htyped c (by
      rw [hpend] at hc
      rw [hall]
      exact mem_append_right _ hc)
    have hshown : bytesOf h.mem (shown s.id s'.pending) = bytesOf h.mem s'.pending :=
      bytesOf_shown hv ht
    rw [← hshown, hpend, hsh, bytesOf_shown]
    · exact fun c hc => hn.wf.valid c (by rw [hp.all]; exact mem_append_right _ hc)
    · exact fun c hc => hn.typed c (by rw [hp.all]; exact mem_append_right _ hc)
  -- the end chunk holds no byte
  have hcontent : ∀ (b : Vbuffer), b.WF h → b.content h = bytesOf h.mem b.all := fun b hb => by
    have h0 := (hb.valid b.last (by simp [Vbuffer.all])).bytes_of_ctl hb.lastCtl
    simp [Vbuffer.content, Vbuffer.all, h0]
  refine ⟨⟨hwf, htyped, ?_⟩, ⟨rfl, rfl, ?_, ?_, ?_, hnothing⟩⟩
  · rw [hall, ctlsOf_append, ownNodes_append, hs.read.nodes, ownNodes_of_shown hsh, hp.own, hc,
      map_append]
  · rw [hpend, hsh, hp.pending hn]
  · have hmark : ∀ d : Data, d.isMark = true → d.isLeftOver s.id = false := fun d hd => by
      cases d <;> first | rfl | simp [Data.isMark] at hd
    have hEm : (ctlsOf E).filter (fun x => x.2.isMark) = [] := by
      refine filter_eq_nil_iff.2 fun x hx => ?_
      obtain ⟨c, hc, -, rfl⟩ := mem_ctlsOf.1 hx
      simp [hE c hc]
    rw [hall, hp.all, ctlsOf_append R, filter_append, filter_ctlsOf_congr hsh hmark,
      ctlsOf_append (E ++ R), ctlsOf_append E, filter_append, filter_append, hEm,
      nil_append]
  · rw [hcontent _ hn.wf, hcontent _ hwf, hp.all, append_assoc, bytesOf_append, bytesOf_append]
    have hR : bytesOf h.mem (R ++ s'.pending) = bytesOf h.mem R ++ bytesOf h.mem (X ++ n :: Y) := by
      rw [bytesOf_append, hbytes]
    rw [hall, ← hpend, hR, bytesOf_append]

/-- A pop that keeps data for readers adds a read chunk. -/
theorem keep_spec (hs : Sorted h s reads R r) (hp : Parted s sc chunks (E ++ R) X n Y)
    (hX : shown s.id (r.moved ++ r.kept) = shown s.id X)
    (hafter : view (r.after ++ [r.last]) = view (n :: Y)) {h' : Heap} (hmem : h'.mem = h.mem)
    (hnext : h.next ≤ h'.next) :
    Noded h' { s with
        data := ⟨R ++ (r.kept.map keptReadonly ++ r.after), r.last⟩
        chunks := chunks
        readChunks := reads ++ [{ sc with userdata := none }] } ∧
      view (VbufferStream.pending { s with
        data := ⟨R ++ (r.kept.map keptReadonly ++ r.after), r.last⟩
        chunks := chunks
        readChunks := reads ++ [{ sc with userdata := none }] }) = view Y := by
  have hpart : (view (r.kept.map keptReadonly ++ r.after)).Sublist
      (view (r.moved ++ r.kept ++ r.after)) := by simp
  have hwf := hs.wf_part hpart
  have htyped := hs.noded.typed_of_view (hs.sublist hpart)
  set s' : VbufferStream υ := { s with
    data := ⟨R ++ (r.kept.map keptReadonly ++ r.after), r.last⟩
    chunks := chunks
    readChunks := reads ++ [{ sc with userdata := none }] } with hs'
  obtain ⟨n', Y', hnY, hn', hY'⟩ := map_eq_cons_iff.1 hafter
  have hnode : IsNode s.id sc n' := by
    refine ⟨?_, ?_, ?_⟩
    · rw [← Chunk.core_id, hn', Chunk.core_id, hp.node.id]
    · rw [← Chunk.core_ctl, hn', Chunk.core_ctl, hp.node.ctl]
    · rw [← Chunk.core_data, hn', Chunk.core_data, hp.node.data]
  have hall : s'.data.all = R ++ r.kept.map keptReadonly ++ [n'] ++ Y' := by
    show R ++ (r.kept.map keptReadonly ++ r.after) ++ [r.last] = _
    simp only [append_assoc, hnY, singleton_append]
  have hkept : ownNodes s.id (ctlsOf (r.kept.map keptReadonly)) = [] := by
    have hown := ownNodes_of_shown hX
    rw [hp.first, ctlsOf_append, ownNodes_append, append_eq_nil_iff] at hown
    rw [← ctlsOf_view, view_map_keptReadonly, ctlsOf_view]
    exact hown.2
  have hread : ReadPart s.id (reads ++ [{ sc with userdata := none }])
      (R ++ r.kept.map keptReadonly ++ [n']) := by
    refine ⟨?_, fun m hm => ?_, fun c hc => htyped c ?_⟩
    · have hone : ownNodes s.id (ctlsOf [n']) = [sc.node s.id] := by
        simp [ctlsOf_cons_ctl _ _ hnode.ctl, ownNodes, hnode.data, hnode.id, StreamChunk.node,
          Data.isOwn]
      rw [ctlsOf_append, ctlsOf_append, ownNodes_append, ownNodes_append, hs.read.nodes, hkept, hone,
        map_append]
      simp [StreamChunk.node]
    · obtain rfl : n' = m := by simpa using hm
      exact ⟨hnode.ctl, by simp [hnode.data, Data.isOwn]⟩
    · rw [hall]
      exact mem_append_left _ hc
  have hY : ownNodes s.id (ctlsOf Y') = chunks.map (StreamChunk.node s.id) := by
    rw [← hp.later, ← ctlsOf_view Y', ← ctlsOf_view Y]
    exact congrArg (fun l => ownNodes s.id (ctlsOf l)) hY'
  have hpend : s'.pending = Y' := ReadPart.pending hread hall hwf.nodup
  refine ⟨⟨hwf.mono hmem hnext, htyped, ?_⟩, by rw [hpend]; exact hY'⟩
  rw [hall, ctlsOf_append _ Y', ownNodes_append, hread.nodes, hY, ← map_append]

theorem move_spec (hs : Sorted h s [] [] r) (hp : Parted s sc chunks E X n Y)
    (hafter : view (r.after ++ [r.last]) = view (n :: Y)) {data : Vbuffer}
    (hdata : data = match r.after with
      | ctl :: after => (vbufferChunkRemoveCtl [] ctl after r.last).toVbuffer
      | [] => ⟨[], { r.last with data := .push sc.ctlData s.id none }⟩)
    (h' : Heap) (hmem : h'.mem = h.mem) (hnext : h.next ≤ h'.next) :
    Noded h' { s with data := data, chunks := chunks, readChunks := [] } ∧
      shown s.id data.all = shown s.id Y := by
  have hmk : data.WF h' → (∀ c ∈ data.all, c.Typed) → shown s.id data.all = shown s.id Y →
      Noded h' { s with data := data, chunks := chunks, readChunks := [] } ∧
        shown s.id data.all = shown s.id Y := fun hwf ht hsh => by
    refine ⟨⟨hwf, ht, ?_⟩, hsh⟩
    rw [ownNodes_of_shown hsh, hp.later]
    rfl
  cases ha : r.after with
  | nil =>
    rw [ha] at hdata hafter
    subst hdata
    obtain ⟨-, hY⟩ := cons.inj hafter
    obtain rfl : Y = [] := map_eq_nil_iff.1 hY.symm
    refine hmk ((hs.wf_last _).mono hmem hnext) (fun c hc => ?_) ?_
    · obtain rfl : c = _ := mem_singleton.1 hc
      exact fun _ => hs.ctl
    · simp [Vbuffer.all, shown, Data.isLeftOver]
  | cons ctl after =>
    rw [ha] at hdata hafter
    subst hdata
    have hv : view (vbufferChunkRemoveCtl [] ctl after r.last).toVbuffer.all = view Y := by
      rw [removeCtl_view]
      exact (cons.inj hafter).2
    obtain ⟨hsub, hw⟩ := hs.removed ha
    exact hmk (hw.mono hmem hnext) (hs.noded.typed_of_view hsub) (shown_of_view hv)

theorem OwnFront.read (hf : OwnFront s) (hp : Parted s sc chunks R X n Y) (hn : Noded h s) :
    ∀ c ∈ R.takeWhile (fun c => !c.data.isMark), c.data.isPush = true → c.data.isOwn s.id = true := by
  cases hr : s.readChunks.getLast? with
  | none =>
    obtain rfl := hp.read.nil_iff.2 (getLast?_eq_none_iff.1 hr)
    simp
  | some r =>
    obtain ⟨A, m, rfl, hm⟩ := hp.read.getLast hr
    obtain ⟨hid, hmd⟩ := Prod.mk.inj hm
    obtain ⟨B, hbody, -⟩ := hp.body
    have hnot : ∀ c ∈ A, decide (c.id ≠ r.ctlIter) = true := by
      intro c hc
      have hnd := hn.wf.nodup_body
      rw [hbody, append_assoc, idsOf_append, nodup_append] at hnd
      have hne := hnd.2.2 c.id (mem_map_of_mem hc) m.id (by simp)
      simpa [← hid] using hne
    have htake : s.data.body.takeWhile (fun c => c.id ≠ r.ctlIter) = A := by
      rw [hbody, append_assoc, takeWhile_append_of_pos hnot, singleton_append,
        takeWhile_cons_of_neg (by simp [hid]), append_nil]
    have hfA := hf r hr
    rw [htake] at hfA
    intro c hc hpush
    rcases mem_append.1 ((takeWhile_sublist _).subset hc) with hcA | hcm
    · -- a chunk of the front is in the front without the last push node
      by_cases hall : ∀ d ∈ A, (!d.data.isMark) = true
      · exact hfA c (by rw [takeWhile_eq_self_iff.2 hall]; exact hcA) hpush
      · have hsame : (A ++ [m]).takeWhile (fun c => !c.data.isMark) =
            A.takeWhile fun c => !c.data.isMark := by
          rw [takeWhile_append, if_neg]
          intro hlen
          apply hall
          rw [← takeWhile_eq_self_iff]
          exact ( takeWhile_prefix _).eq_of_length hlen
        exact hfA c (hsame ▸ hc) hpush
    · obtain rfl : c = m := by simpa using hcm
      simp [hmd, Data.isOwn]

/-- **Pop.** A pop gives the first pending buffer, or is refused for a node in it. -/
theorem pop_parted (hn : Noded h s) (hc : s.chunks = sc :: chunks) (hf : OwnFront s) :
    (∃ h' s' b, vbufferStreamPop h s = (h', s', some (b, sc.userdata)) ∧ s'.id = s.id ∧
      Noded h' s' ∧ (∀ c ∈ s.firstPending, c.data.blocks = false) ∧ Given h s h' s' b) ∨
    ∃ s' erased, vbufferStreamPop h s = (h, s', none) ∧ s'.id = s.id ∧ Noded h s' ∧
      (∃ c ∈ s.firstPending, c.data.blocks = true) ∧ Refused h s erased h s' := by
  obtain ⟨R0, X, n, Y, hp⟩ := hn.parted hc
  obtain ⟨B, hbody, hB⟩ := hp.body
  obtain ⟨E, R, reads, hclean, rfl, hR, hE, -, hhead⟩ := cleanup_read hp.read (hf.read hp hn) B
  have hsub : (R ++ B).Sublist s.data.body := by
    rw [hbody, append_assoc]
    exact sublist_append_right _ _
  have hbegin : popBegin ⟨R ++ B, s.data.last⟩ reads = (R, B) := begin_read hR (hn.wf.of_sublist hsub)
  have hnothing : NothingRead s → E = [] := by
    intro h0
    by_cases hreads : s.readChunks = []
    · exact (append_eq_nil_iff.1 (hp.read.nil_iff.2 hreads)).1
    · refine hhead fun c hc => h0 hreads c ?_
      rw [hbody, head?_append, Option.mem_def.1 hc]
      rfl
  obtain ⟨r, hr⟩ : ∃ r, r = popScan s.id (.push sc.ctlData s.id (some sc.id)) false false
      (!reads.isEmpty) [] [] B s.data.last := ⟨_, rfl⟩
  have hs : Sorted h s reads R r := ⟨scanParts hn.wf hsub hr, hn, hR⟩
  have hX : ∀ c ∈ X, c.data ≠ .push sc.ctlData s.id (some sc.id) ∧ c.Typed := by
    intro c hcX
    have hty := hn.typed c (by rw [hp.all]; simp [hcX])
    refine ⟨fun hd => ?_, hty⟩
    have hown : c.data.isOwn s.id = true := by simp [hd, Data.isOwn]
    have hmem : (c.id, c.data) ∈ ownNodes s.id (ctlsOf X) := mem_filter.2
      ⟨mem_ctlsOf.2 ⟨c, hcX, hty (isControl_of_isOwn hown), rfl⟩, hown⟩
    rw [hp.first] at hmem
    simp at hmem
  have hfirst := hp.firstPending hn hc
  have hlater := hp.laterPending hn hc
  have hvalid : ∀ c ∈ X, c.Valid h.mem := fun c hcX => hn.wf.valid c (by rw [hp.all]; simp [hcX])
  unfold vbufferStreamPop
  simp only [hc, hbody, hclean, hbegin, ← hr]
  rcases popScan_first hp.node.data hX hB (fun _ => rfl) hr with
    ⟨hfound, hclear, hsh, hafter⟩ | ⟨hfound, hblocks, hsh⟩
  · left
    have hsh' : shown s.id (r.moved ++ r.kept) = shown s.id X := by simpa using hsh
    have hpart := (hs.wf_part (List.Sublist.refl _)).valid_body
    have hbytes : bytesOf h.mem (r.moved ++ r.kept) = bytesOf h.mem X := by
      have hty := hn.typed_of_view (hs.sublist (List.Sublist.refl _))
      have hmem : ∀ c ∈ r.moved ++ r.kept, c ∈ R ++ (r.moved ++ r.kept ++ r.after) :=
        fun c hc => mem_append_right _ (mem_append_left _ hc)
      have hshown : bytesOf h.mem (shown s.id (r.moved ++ r.kept)) =
          bytesOf h.mem (r.moved ++ r.kept) :=
        bytesOf_shown (fun c hc => hpart c (hmem c hc))
          fun c hc => hty c (mem_append_left _ (hmem c hc))
      rw [← hshown, hsh', bytesOf_shown hvalid fun c hc => (hX c hc).2]
    simp only [hfound, if_true, vbufferCreateEmpty, _vbufferInit, vbufferChunkCreateEnd]
    rw [hfirst]
    by_cases hk : r.keep = true
    · simp only [hk, if_true]
      have hcl := cloneChunks_spec .rw ⟨h.next + 1, h.mem⟩ (r.kept.filter fun c => !c.flags.ctl)
      have hnext := hcl.next
      dsimp only at hnext
      have hkeep := keep_spec hs hp hsh' hafter hcl.mem (by omega)
      rw [← append_assoc] at hkeep
      refine ⟨_, _, _, rfl, rfl, hkeep.1, hclear, hcl.mem, by rw [hc]; rfl, ?_, ?_⟩
      · rw [hfirst, ← hbytes, Vbuffer.content, bytesOf_append, bytesOf_append, hcl.mem, hcl.bytes,
          bytesOf_filter_data fun c hc => hpart c (by simp [hc])]
      · rw [hlater]
        exact shown_of_view hkeep.2
    · have hk' : r.keep = false := by simpa using hk
      obtain ⟨rfl, hkept⟩ := hs.keep hk'
      obtain rfl := hR.nil_iff.2 rfl
      simp only [hk', Bool.false_eq_true, if_false]
      have hmove := move_spec hs hp hafter rfl ⟨h.next + 1, h.mem⟩ rfl (Nat.le_succ _)
      refine ⟨_, _, _, rfl, rfl, hmove.1, hclear, rfl, by rw [hc]; rfl, ?_, ?_⟩
      · rw [hfirst, ← hbytes, hkept, append_nil]
        rfl
      · rw [hlater, ← hmove.2]
        rfl
  · right
    simp only [hfound, Bool.false_eq_true, if_false]
    rw [hfirst]
    obtain ⟨hn', href⟩ := refused_spec hs hp hc hE hnothing (by simpa using hsh) rfl
    simp only [← append_assoc, hc] at hn' href
    exact ⟨_, E, rfl, rfl, hn', hblocks, href⟩

end Pop

/-- A pop succeeds exactly when the first pending buffer is free of nodes that block, and gives its
bytes; a refused one leaves the pending data. -/
structure Retains (h : Heap) (s : VbufferStream υ) : Prop where
  succeeds : (vbufferStreamPop h s).2.2.isSome = true ↔
    s.chunks ≠ [] ∧ ∀ c ∈ s.firstPending, c.data.blocks = false
  given : ∀ h' s' b u, vbufferStreamPop h s = (h', s', some (b, u)) → Given h s h' s' b
  refused : ∀ h' s', vbufferStreamPop h s = (h', s', none) → ∃ erased, Refused h s erased h' s'

section Retains

variable {h : Heap} {s : VbufferStream υ}

theorem Noded.retains (hn : Noded h s) (hf : OwnFront s) : Retains h s := by
  cases hc : s.chunks with
  | nil =>
    have hpop : vbufferStreamPop h s = (h, s, none) := by simp [vbufferStreamPop, hc]
    refine ⟨by simp [hpop, hc], fun h' s' b u heq => ?_, fun h' s' heq => ⟨[], ?_⟩⟩
    · simp [hpop] at heq
    · rw [hpop] at heq
      obtain ⟨rfl, rfl⟩ := heq
      exact ⟨rfl, rfl, rfl, rfl, rfl, fun _ => rfl⟩
  | cons sc chunks =>
    rcases pop_parted hn hc hf with
      ⟨h1, s1, b1, hpop, -, -, hclear, hg⟩ | ⟨s1, erased, hpop, -, -, ⟨c, hcm, hb⟩, href⟩
    · refine ⟨?_, fun h' s' b u heq => ?_, fun h' s' heq => ?_⟩
      · simp only [hpop, Option.isSome_some, hc, ne_eq, reduceCtorEq, not_false_iff, true_and,
          true_iff]
        exact hclear
      · rw [hpop] at heq
        obtain ⟨rfl, rfl, rfl, -⟩ := heq
        exact hg
      · simp [hpop] at heq
    · refine ⟨?_, fun h' s' b u heq => ?_, fun h' s' heq => ⟨erased, ?_⟩⟩
      · simp only [hpop, Option.isSome_none, Bool.false_eq_true, false_iff, not_and]
        intro _ hall
        simp [hall c hcm] at hb
      · simp [hpop] at heq
      · rw [hpop] at heq
        obtain ⟨rfl, rfl⟩ := heq
        exact href

def VbufferStream.held (s : VbufferStream υ) : List (ℕ × Data) :=
  (ctlsOf s.pending).filter fun x => x.2.blocks

theorem pop_held (hn : Noded h s) (hf : OwnFront s) :
    Noded (vbufferStreamPop h s).1 (vbufferStreamPop h s).2.1 ∧
      (vbufferStreamPop h s).2.1.held = s.held := by
  cases hc : s.chunks with
  | nil =>
    have hpop : vbufferStreamPop h s = (h, s, none) := by simp [vbufferStreamPop, hc]
    rw [hpop]
    exact ⟨hn, rfl⟩
  | cons sc chunks =>
    have hblocks : ∀ d : Data, d.blocks = true → d.isLeftOver s.id = false :=
      fun _ hd => isLeftOver_of_blocks hd
    rcases pop_parted hn hc hf with
      ⟨h1, s1, b1, hpop, -, hn', hclear, hg⟩ | ⟨s1, erased, hpop, -, hn', -, href⟩
    · rw [hpop]
      refine ⟨hn', (filter_ctlsOf_congr hg.pending hblocks).trans ?_⟩
      obtain ⟨R, X, n, Y, hp⟩ := hn.parted hc
      rw [hp.firstPending hn hc] at hclear
      have hX : (ctlsOf X).filter (fun x => x.2.blocks) = [] := by
        refine filter_eq_nil_iff.2 fun x hx => ?_
        obtain ⟨c, hcX, -, rfl⟩ := mem_ctlsOf.1 hx
        simp [hclear c hcX]
      rw [VbufferStream.held, hp.pending hn, hp.laterPending hn hc, ctlsOf_append,
        ctlsOf_cons_ctl _ _ hp.node.ctl, filter_append, hX, hp.node.data,
        filter_cons_of_neg (by simp [Data.blocks])]
      rfl
    · rw [hpop]
      exact ⟨hn', filter_ctlsOf_congr href.pending hblocks⟩

end Retains

/-! ## Runs -/

/-- A call on a stream or on its data. -/
inductive StreamOp (υ : Type) where
  | call (call : StreamCall υ)
  | select (data : Sub)
  | restore (position : Iterator) (data : Option Vbuffer) (clone : Bool)

/-- One call, in the heap its caller has at that moment. -/
def streamOpStep (σ : Heap × VbufferStream υ) (i : Heap × StreamOp υ) :
    (Heap × VbufferStream υ) × StreamEvent υ :=
  match i.2 with
  | .call call => streamStep σ (i.1, call)
  | .select data =>
    let r := vbufferSelect i.1 σ.2.data data
    ((r.1, { σ.2 with data := r.2.1 }), .other)
  | .restore position data clone =>
    let r := vbufferRestore i.1 σ.2.data position data clone
    ((r.1, { σ.2 with data := r.2.1 }), .other)

def Vbuffer.Inside (b : Vbuffer) : Sub → Prop
  | .sized begin _ => b.InRange begin
  | .between begin «end» => b.InRange begin ∧ b.InRange «end» ∧ begin.chunk ∈ b.reach «end» ∧
      b.offsetOf begin ≤ b.offsetOf «end»

instance (b : Vbuffer) : ∀ data, Decidable (b.Inside data)
  | .sized begin _ => inferInstanceAs (Decidable (b.InRange begin))
  | .between begin «end» => inferInstanceAs (Decidable (b.InRange begin ∧ b.InRange «end» ∧
      begin.chunk ∈ b.reach «end» ∧ b.offsetOf begin ≤ b.offsetOf «end»))

theorem Vbuffer.Inside.covers {b : Vbuffer} {data : Sub} (hd : b.Inside data) :
    ∃ lo hi, b.Covers data lo hi := by
  cases data with
  | sized begin length => exact ⟨_, _, .sized hd⟩
  | between begin «end» => exact ⟨_, _, .between hd.1 hd.2.1 hd.2.2.1 hd.2.2.2⟩

/-- A call as a program makes it: the heap still holds the data, a pushed or restored buffer is well
formed, apart from the stream and without push node of it, marks and selections are inside the data.
No selection takes a push node of the stream, and no pop finds a push node of another stream in
front of the readers. -/
def OpOk (σ : Heap × VbufferStream υ) (i : Heap × StreamOp υ) : Prop :=
  σ.1.Keeps i.1 σ.2.data.all ∧
  match i.2 with
  | .call (.push buffer _) => Restorable i.1 σ.2 buffer
  | .call (.mark pos _) => _vbufferIteratorCheck σ.2.data pos = true → σ.2.data.InRange pos
  | .call .pop => OwnFront σ.2
  | .call _ => True
  | .select data => _vbufferSubCheck σ.2.data data = true → σ.2.data.Inside data ∧
      ownNodes σ.2.id ((σ.2.data.rangeItems data).filterMap Item.ctl?) = []
  | .restore _ data _ => ∀ b ∈ data, Restorable i.1 σ.2 b

instance (σ : Heap × VbufferStream υ) : ∀ i, Decidable (OpOk σ i)
  | (h, .call (.push b _)) => inferInstanceAs (Decidable (σ.1.Keeps h σ.2.data.all ∧
      Restorable h σ.2 b))
  | (h, .call (.mark pos _)) => inferInstanceAs (Decidable (σ.1.Keeps h σ.2.data.all ∧
      (_vbufferIteratorCheck σ.2.data pos = true → σ.2.data.InRange pos)))
  | (h, .call .pop) => inferInstanceAs (Decidable (σ.1.Keeps h σ.2.data.all ∧ OwnFront σ.2))
  | (h, .call (.unmark _)) | (h, .call .finish) =>
    inferInstanceAs (Decidable (σ.1.Keeps h σ.2.data.all ∧ True))
  | (h, .select data) => inferInstanceAs (Decidable (σ.1.Keeps h σ.2.data.all ∧
      (_vbufferSubCheck σ.2.data data = true → σ.2.data.Inside data ∧
        ownNodes σ.2.id ((σ.2.data.rangeItems data).filterMap Item.ctl?) = [])))
  | (h, .restore _ data _) => inferInstanceAs (Decidable (σ.1.Keeps h σ.2.data.all ∧
      ∀ b ∈ data, Restorable h σ.2 b))

def LeavesNode (x : ℕ × Data) (σ : Heap × VbufferStream υ) (i : Heap × StreamOp υ) : Prop :=
  i.2 = .call .pop ∨ x.1 ∈ (ctlsOf (streamOpStep σ i).1.2.data.all).map Prod.fst

def KeepsNodes (σ : Heap × VbufferStream υ) : Prop := Noded σ.1 σ.2

section Runs

variable {σ : Heap × VbufferStream υ} {i : Heap × StreamOp υ}

theorem init_noded (h : Heap) : KeepsNodes (vbufferStreamInit (υ := υ) h) := by
  have hf : Fifo true (vbufferStreamInit (υ := υ) h).1 (vbufferStreamInit h).2 [] := init_fifo h
  refine ⟨hf.wf, fun c hc => ?_, rfl⟩
  simp only [vbufferStreamInit, vbufferCreateEmpty, _vbufferInit, Vbuffer.all_mk, nil_append,
    mem_singleton] at hc
  subst hc
  exact fun h0 => by simp [Chunk.setEof, vbufferChunkCreateEnd, endChunk, Data.isControl] at h0

/-- Every call keeps the push nodes, and the nodes that hold back data unless it removes them. -/
theorem streamOpStep_held (hn : KeepsNodes σ) (hi : OpOk σ i) : KeepsNodes (streamOpStep σ i).1 ∧
      ∀ x ∈ σ.2.held, LeavesNode x σ i → x ∈ (streamOpStep σ i).1.2.held := by
  obtain ⟨h0, s⟩ := σ
  obtain ⟨h, op⟩ := i
  obtain ⟨hkeeps, hop⟩ := hi
  have hn : Noded h s := Noded.keeps hn hkeeps
  -- a call other than a pop
  have hstays : ∀ σ', (streamOpStep (h0, s) (h, op)).1 = σ' → op ≠ .call .pop →
      Stays s σ'.1 σ'.2 → KeepsNodes σ' ∧ ∀ x ∈ s.held, LeavesNode x (h0, s) (h, op) → x ∈ σ'.2.held := by
    intro σ' hσ hne hst
    refine ⟨hst.noded, fun x hx hsp => ?_⟩
    obtain ⟨hxp, hxb⟩ := mem_filter.1 hx
    have hmem := hsp.resolve_left hne
    rw [hσ] at hmem
    exact mem_filter.2 ⟨hst.held x hxp hxb hmem, hxb⟩
  cases op with
  | call call =>
    cases call with
    | push buffer userdata => exact hstays _ rfl (by simp) (push_stays hn hop userdata)
    | pop =>
      obtain ⟨hn', hheld⟩ := pop_held hn hop
      refine ⟨hn', fun x hx _ => ?_⟩
      show x ∈ (vbufferStreamPop h s).2.1.held
      rw [hheld]
      exact hx
    | mark pos readonly => exact hstays _ rfl (by simp) (mark_stays hn hop readonly)
    | unmark pos => exact hstays _ rfl (by simp) (unmark_stays hn)
    | finish => exact hstays _ rfl (by simp) (finish_stays hn)
  | select data =>
    refine hstays _ rfl (by simp) ?_
    by_cases hcheck : _vbufferSubCheck s.data data = true
    · obtain ⟨hinside, hown⟩ := hop hcheck
      obtain ⟨lo, hi, hc⟩ := hinside.covers
      exact select_stays hn hc hown
    · have hnone : vbufferSelect h s.data data = (h, s.data, none) := by
        simp [vbufferSelect, _vbufferExtract, hcheck]
      show Stays s (vbufferSelect h s.data data).1 { s with data := (vbufferSelect h s.data data).2.1 }
      rw [hnone]
      exact hn.stays
  | restore position data clone => exact hstays _ rfl (by simp) (restore_stays clone hn hop)

/-- **Retained data is not released.** In every run a pop succeeds exactly when the first pending
buffer holds no read-write mark and no select node, and gives its bytes; a refused pop leaves the
pending data, the chunks to pop and all marks, and the content up to read data it erases. A node
holds back pending data as long as it is not removed. -/
theorem pop_retains_held (h : Heap) (is : List (Heap × StreamOp υ))
    (hcalls : Guarded streamOpStep OpOk (vbufferStreamInit h) is) :
    (∀ h', (run streamOpStep (vbufferStreamInit h) is).1.1.Keeps h'
        (run streamOpStep (vbufferStreamInit h) is).1.2.data.all →
      OwnFront (run streamOpStep (vbufferStreamInit h) is).1.2 →
      Retains h' (run streamOpStep (vbufferStreamInit h) is).1.2) ∧
    ∀ js, ∀ x ∈ (run streamOpStep (vbufferStreamInit h) is).1.2.held,
      Guarded streamOpStep (fun σ i => OpOk σ i ∧ LeavesNode x σ i)
        (run streamOpStep (vbufferStreamInit h) is).1 js →
      x ∈ (run streamOpStep (run streamOpStep (vbufferStreamInit h) is).1 js).1.2.held := by
  have hkept : ∀ (σ : Heap × VbufferStream υ) i, KeepsNodes σ → OpOk σ i →
      KeepsNodes (streamOpStep σ i).1 := fun σ i hσ hi => (streamOpStep_held hσ hi).1
  have hn : KeepsNodes (run streamOpStep (vbufferStreamInit h) is).1 :=
    run_invariant hkept (init_noded h) hcalls
  refine ⟨fun h' hk hf => Noded.retains (Noded.keeps hn hk) hf, fun js x hx hjs => ?_⟩
  have hstep : ∀ (σ : Heap × VbufferStream υ) i, (KeepsNodes σ ∧ x ∈ σ.2.held) →
      (OpOk σ i ∧ LeavesNode x σ i) →
      (KeepsNodes (streamOpStep σ i).1 ∧ x ∈ (streamOpStep σ i).1.2.held) := fun σ i hσ hi => by
    obtain ⟨hn', hheld⟩ := streamOpStep_held hσ.1 hi.1
    exact ⟨hn', hheld x hσ.2 hi.2⟩
  exact (run_invariant hstep ⟨hn, hx⟩ hjs).2

end Runs

def selectRun : List (Heap × StreamOp Unit) :=
  [(twoBlocks 20, .call (.push (blockBuffer 3 1 2) none)),
    (twoBlocks 30, .call (.push (blockBuffer 5 2 1) none)),
    (twoBlocks 40, .select (.between ⟨3, 1, 0, false⟩ ⟨3, 2, 0, false⟩))]

/-- The selection holds the first buffer back, also after a pop was tried. -/
theorem pop_retains_held_selectRun :
    Retains (twoBlocks 50) (run streamOpStep (vbufferStreamInit (twoBlocks 10)) selectRun).1.2 ∧
    (run streamOpStep (vbufferStreamInit (twoBlocks 10)) selectRun).1.2.held = [(43, .select 42)] ∧
    (43, .select 42) ∈ (run streamOpStep
      (run streamOpStep (vbufferStreamInit (twoBlocks 10)) selectRun).1
      [(twoBlocks 50, .call .pop)]).1.2.held :=
  ⟨(pop_retains_held (twoBlocks 10) selectRun (by decide +kernel)).1 _ (by decide +kernel)
      (by decide +kernel), by decide +kernel,
    (pop_retains_held (twoBlocks 10) selectRun (by decide +kernel)).2 _ _ (by decide +kernel)
      ⟨⟨by decide +kernel, .inl rfl⟩, trivial⟩⟩

/-- A buffer pushed, marked for reading and popped; then another one is pushed, the mark removed and
the new data marked for writing. -/
def erasedRun : List (Heap × StreamOp Unit) :=
  [(twoBlocks 20, .call (.push (blockBuffer 3 1 2) none)),
    (twoBlocks 30, .call (.mark ⟨3, 1, 0, false⟩ true)), (twoBlocks 40, .call .pop),
    (twoBlocks 50, .call (.push (blockBuffer 5 2 1) none)),
    (twoBlocks 60, .call (.unmark ⟨32, 0, 0, false⟩)),
    (twoBlocks 70, .call (.mark ⟨5, 0, 0, false⟩ false))]

/-- The data of another stream is pushed, marked and popped; then a buffer is pushed, the mark
removed and the popped data marked for writing, behind a push node of the other stream. -/
def foreignRun : List (Heap × StreamOp Unit) :=
  [(chainedHeap 30, .call (.push chainedBuffer.2 none)),
    (chainedHeap 40, .call (.mark ⟨8, 0, 0, false⟩ true)), (chainedHeap 50, .call .pop),
    (chainedHeap 60, .call (.push (vbufferCreateFrom chainedBuffer.1 [99]).2 none)),
    (chainedHeap 70, .call (.unmark ⟨41, 0, 0, false⟩)),
    (chainedHeap 80, .call (.mark ⟨5, 0, 0, false⟩ false))]

/-- Two buffers pushed, and a selection over the push node of the first that is restored with
nothing. -/
def lostRun : List (Heap × StreamOp Unit) :=
  [(twoBlocks 20, .call (.push (blockBuffer 3 1 2) none)),
    (twoBlocks 30, .call (.push (blockBuffer 5 2 1) none)),
    (twoBlocks 40, .select (.between ⟨3, 1, 0, false⟩ ⟨5, 1, 0, false⟩)),
    (twoBlocks 50, .restore ⟨43, 0, 0, false⟩ none false)]

/-- A refused pop changes the content; a pop is refused for a mark on popped data; and a pop is
refused though there is no node in the data. -/
theorem refused_pop_not_harmless :
    (Guarded streamOpStep OpOk (vbufferStreamInit (twoBlocks 10)) erasedRun ∧
      (run streamOpStep (vbufferStreamInit (twoBlocks 10)) erasedRun).1.2.data.content (twoBlocks 80) =
        [98, 99] ∧
      (vbufferStreamPop (twoBlocks 80)
        (run streamOpStep (vbufferStreamInit (twoBlocks 10)) erasedRun).1.2).2.2.isNone = true ∧
      (vbufferStreamPop (twoBlocks 80)
        (run streamOpStep (vbufferStreamInit (twoBlocks 10)) erasedRun).1.2).2.1.data.content
          (twoBlocks 80) = [99]) ∧
    (Guarded streamOpStep OpOk (vbufferStreamInit (chainedHeap 20)) foreignRun ∧
      (run streamOpStep (vbufferStreamInit (chainedHeap 20)) foreignRun).1.2.held = [] ∧
      (vbufferStreamPop (chainedHeap 90)
        (run streamOpStep (vbufferStreamInit (chainedHeap 20)) foreignRun).1.2).2.2.isNone = true) ∧
    (run streamOpStep (vbufferStreamInit (twoBlocks 10)) lostRun).1.2.data.Clear ∧
      (run streamOpStep (vbufferStreamInit (twoBlocks 10)) lostRun).1.2.chunks.length = 2 ∧
      (vbufferStreamPop (twoBlocks 60)
        (run streamOpStep (vbufferStreamInit (twoBlocks 10)) lostRun).1.2).2.2.isNone = true := by
  decide +kernel

end Haka
