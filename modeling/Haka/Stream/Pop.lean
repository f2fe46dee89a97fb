import Haka.Stream.Invariant

/-!
# Popping a stream

A pop erases what the readers no longer hold, looks for the push node of the first chunk, and
moves or clones what stands before it. It gives the head of the queue, or nothing.

The erasure takes every push node for that of a read chunk. It is right as long as no push node
of another stream stands before the first mark.
-/

namespace Haka

open List Segments

variable {υ : Type}

/-! ## Erasing what was read -/

/-- The front of the data, which the erasure goes over, holds no push node of another stream. -/
def CleanFront (s : VbufferStream υ) : Prop :=
  s.readChunks ≠ [] →
    ∀ c ∈ s.data.body.takeWhile (fun c => !c.data.isMark), c.data.isForeign s.id = false

instance (s : VbufferStream υ) : Decidable (CleanFront s) :=
  inferInstanceAs (Decidable (s.readChunks ≠ [] → _))

theorem Fifo.cleanFront {h : Heap} {s : VbufferStream υ} {pend : List (StreamChunk υ × List UInt8)}
    (hf : Fifo false h s pend) : CleanFront s := by
  intro _ c hc
  have hmem : c.core ∈ view s.data.all :=
    mem_map_of_mem (mem_append_left _ ((takeWhile_sublist _).subset hc))
  exact hf.layout.not_foreign c.core hmem

section Cleanup

variable {m : ℕ → List UInt8} {sid : ℕ} {foreign : Bool} {reads : List (StreamChunk υ)}
  {pend : List (StreamChunk υ × List UInt8)} {l : List Chunk}

def ReadSegs (m : ℕ → List UInt8) (sid : ℕ) (foreign : Bool) (reads : List (StreamChunk υ)) :
    List Chunk → Prop :=
  Segs (Plain sid foreign) (fun e => IsNode sid e.1) (Holds m) (· = []) (reads.map fun r => (r, none))

theorem streamSegs_append : StreamSegs m sid foreign (entries reads pend) l ↔
    ∃ R P, l = R ++ P ∧ ReadSegs m sid foreign reads R ∧
      StreamSegs m sid foreign (entries [] pend) P := by
  exact segs_append

variable {r : StreamChunk υ}

theorem readSegs_cons : ReadSegs m sid foreign (r :: reads) l ↔
    ∃ seg d rest, l = seg ++ d :: rest ∧ (∀ c ∈ seg, Plain sid foreign c) ∧
      IsNode sid r d ∧ ReadSegs m sid foreign reads rest := by
  have hh : ∀ seg, Holds m ((r, none) : Entry υ) seg := by
    intro seg bs hbs
    cases hbs
  constructor
  · rintro ⟨seg, d, rest, hl, hp, -, hd, hr⟩
    exact ⟨seg, d, rest, hl, hp, hd, hr⟩
  · rintro ⟨seg, d, rest, hl, hp, hd, hr⟩
    exact ⟨seg, d, rest, hl, hp, hh seg, hd, hr⟩

theorem ReadSegs.getLast (h : ReadSegs m sid foreign reads l) (hr : reads.getLast? = some r) : ∃ R node, l = R ++ [node] ∧ IsNode sid r node := by
  obtain ⟨reads, rfl⟩ := getLast?_eq_some_iff.1 hr
  unfold ReadSegs at h
  rw [map_append, segs_append] at h
  obtain ⟨l1, l2, rfl, -, seg, d, rest, rfl, -, -, hd, hrest⟩ := h
  obtain rfl : rest = [] := hrest
  exact ⟨l1 ++ seg, d, by simp, hd⟩

theorem ReadSegs.snoc {before kept : List Chunk} {n : Chunk}
    (h : ReadSegs m sid foreign reads (view before)) (hp : ∀ c ∈ kept, Plain sid foreign c)
    (hn : IsNode sid r n) :
    ReadSegs m sid foreign (reads ++ [{ r with userdata := none }]) (view before ++ view kept ++ [n]) := by
  unfold ReadSegs
  rw [map_append, append_assoc]
  refine segs_append.2 ⟨_, _, rfl, h, view kept, n, [], rfl, plain_view.2 hp, ?_, ?_, rfl⟩
  · rintro bs ⟨⟩
  · exact ⟨hn.id, hn.ctl, hn.data⟩

variable {last : Chunk}

/-- **Erasure.** What is erased is a front of the read segments. -/
theorem cleanup_spec {body R P : List Chunk}
    (hl : view (body ++ [last]) = R ++ P) (hR : ReadSegs m sid foreign reads R)
    (hfront : reads ≠ [] →
      ∀ c ∈ body.takeWhile (fun c => !c.data.isMark), c.data.isForeign sid = false) :
    ∃ body' reads' R', _vbufferStreamCleanup body reads = (body', reads') ∧
      view (body' ++ [last]) = R' ++ P ∧ ReadSegs m sid foreign reads' R' ∧ body'.Sublist body := by
  induction body generalizing reads R with
  | nil =>
    refine ⟨[], reads, R, ?_, hl, hR, List.Sublist.refl _⟩
    cases reads <;> rfl
  | cons c body ih =>
    cases reads with
    | nil => exact ⟨c :: body, [], R, rfl, hl, hR, List.Sublist.refl _⟩
    | cons r reads =>
      have hfront := hfront (cons_ne_nil _ _)
      by_cases hm : c.data.isMark = true
      · refine ⟨c :: body, r :: reads, R, ?_, hl, hR, List.Sublist.refl _⟩
        rw [_vbufferStreamCleanup, if_pos hm]
      have htake : (c :: body).takeWhile (fun c => !c.data.isMark) =
          c :: body.takeWhile (fun c => !c.data.isMark) := by simp [hm]
      rw [htake] at hfront
      obtain ⟨seg, d, rest, rfl, hseg, hd, hrest⟩ := readSegs_cons.1 hR
      rw [_vbufferStreamCleanup, if_neg hm]
      by_cases hpush : c.data.isPush = true
      · -- a push node of this stream is not plain, so that it is that of the read chunk
        rw [if_pos hpush]
        have hnil : seg = [] := by
          cases seg with
          | nil => rfl
          | cons x seg =>
            obtain ⟨hx, -⟩ := cons.inj hl
            have hp := (hseg x (by simp)).data
            have hf := hfront c (by simp)
            rw [← hx, Chunk.core_data] at hp
            cases hdc : c.data with
            | push a t k =>
              rw [hdc] at hp hf
              simp only [Data.isPlain, Bool.and_eq_true] at hp
              simp only [Data.isForeign] at hf
              rw [hf] at hp
              simp at hp
            | _ => simp [hdc, Data.isPush] at hpush
        subst hnil
        obtain ⟨-, hl'⟩ := cons.inj hl
        obtain ⟨body', reads', R', heq, hv, hR', hs⟩ :=
          ih hl' hrest fun _ c hc => hfront c (by simp [hc])
        exact ⟨body', reads', R', heq, hv, hR', hs.cons _⟩
      · rw [if_neg hpush]
        cases seg with
        | nil =>
          obtain ⟨hx, -⟩ := cons.inj hl
          have := hd.data
          rw [← hx, Chunk.core_data] at this
          simp [this, Data.isPush] at hpush
        | cons x seg =>
          obtain ⟨-, hl'⟩ := cons.inj hl
          have hR' : ReadSegs m sid foreign (r :: reads) (seg ++ d :: rest) :=
            readSegs_cons.2 ⟨seg, d, rest, rfl, fun c hc => hseg c (by simp [hc]), hd, hrest⟩
          obtain ⟨body', reads', R', heq, hv, hR', hs⟩ :=
            ih (by simpa [view] using hl') hR' fun _ c hc => hfront c (by simp [hc])
          exact ⟨body', reads', R', heq, hv, hR', hs.cons _⟩

/-- What the scan starts from: the chunks of the read part, and the chunks from `begin` on. -/
structure Begun (m : ℕ → List UInt8) (sid : ℕ) (foreign : Bool) (reads : List (StreamChunk υ))
    (pend : List (StreamChunk υ × List UInt8)) (before rest : List Chunk) (last : Chunk) : Prop where
  read : ReadSegs m sid foreign reads (view before)
  layout : Layout m sid foreign [] pend (view (rest ++ [last]))
  segs : reads ≠ [] → StreamSegs m sid foreign (entries [] pend) (view (rest ++ [last]))

theorem ReadSegs.nil_iff : ReadSegs m sid foreign ([] : List (StreamChunk υ)) l ↔ l = [] := Iff.rfl

theorem popBegin_append (b : Vbuffer) (reads : List (StreamChunk υ)) :
    (popBegin b reads).1 ++ (popBegin b reads).2 = b.body := by
  unfold popBegin
  split
  · rfl
  · rw [append_assoc, take_append_drop]
    exact congrArg Vbuffer.body (b.seek_toVbuffer _)

/-- The scan starts after the read part. -/
theorem begin_spec {h : Heap} {s : VbufferStream υ} {p : StreamChunk υ × List UInt8}
    (hf : Fifo foreign h s (p :: pend)) (hfront : CleanFront s) :
    ∃ body reads before rest, _vbufferStreamCleanup s.data.body s.readChunks = (body, reads) ∧
      popBegin ⟨body, s.data.last⟩ reads = (before, rest) ∧ (before ++ rest).Sublist s.data.body ∧
      Begun h.mem s.id foreign reads (p :: pend) before rest s.data.last := by
  rcases hf.layout with hsegs | ⟨V1, L, V2, hl, hL, hn, hr, hV, hsegs⟩
  · obtain ⟨R, P, hl, hR, hP⟩ := streamSegs_append.1 hsegs
    obtain ⟨body, reads, R', hclean, hv, hR', hsub⟩ := cleanup_spec hl hR hfront
    cases hlast : reads.getLast? with
    | none =>
      obtain rfl : reads = [] := getLast?_eq_none_iff.1 hlast
      obtain rfl : R' = [] := hR'
      have hv' : view (body ++ [s.data.last]) = P := by simpa using hv
      exact ⟨body, [], [], body, hclean, rfl, by simpa using hsub, rfl, .inl (hv' ▸ hP),
        fun h0 => absurd rfl h0⟩
    | some r =>
      obtain ⟨R1, node, rfl, hnode⟩ := hR'.getLast hlast
      -- the push node to look for stands in the pending part, so that the last read node is not
      -- the end chunk
      obtain ⟨B1, n, B2, hbody, hB1, hnc, hB2⟩ : ∃ B1 n B2, body = B1 ++ n :: B2 ∧
          view B1 = R1 ∧ n.core = node ∧ view (B2 ++ [s.data.last]) = P := by
        have hv' : view (body ++ [s.data.last]) = R1 ++ node :: P := by simpa using hv
        obtain ⟨B1, rest, rfl, hB1, hrest⟩ := view_split hv'
        cases rest with
        | nil =>
          obtain ⟨-, rfl⟩ := cons.inj hrest
          obtain ⟨seg, d, rest, h0, -⟩ := hP
          simp at h0
        | cons n B2 =>
          obtain ⟨hnc, hB2⟩ := cons.inj hrest
          exact ⟨B1, n, B2, rfl, hB1, hnc, hB2⟩
      have hid : n.id = r.ctlIter := by
        rw [← Chunk.core_id, hnc]
        exact hnode.id
      have hwf : (Vbuffer.mk body s.data.last).WF h := hf.wf.of_sublist hsub
      have hnot : n.id ∉ idsOf B1 := by
        have := hwf.nodup_body
        simp only [hbody, idsOf_append, idsOf_cons, nodup_append] at this
        exact fun hm => this.2.2 _ hm _ (by simp) rfl
      refine ⟨body, reads, B1 ++ [n], B2, hclean, ?_, ?_, ?_, .inl (hB2 ▸ hP), fun _ => hB2 ▸ hP⟩
      · unfold popBegin
        rw [hlast, hbody]
        dsimp only
        rw [← hid, Vbuffer.seek_mk hnot]
        rfl
      · simpa [← hbody] using hsub
      · simpa [hB1, hnc] using hR'
  · have hreads : ∀ b, _vbufferStreamCleanup b s.readChunks = (b, []) := by
      intro b
      rw [hr]
      cases b <;> rfl
    refine ⟨s.data.body, [], [], s.data.body, hreads _, rfl, List.Sublist.refl _, rfl, ?_,
      fun h0 => absurd rfl h0⟩
    have := hf.layout
    rwa [hr] at this

theorem Begun.layout_append {before rest l' : List Chunk}
    (hb : Begun m sid foreign reads pend before rest last)
    (hl : Layout m sid foreign [] pend l')
    (hs : StreamSegs m sid foreign (entries [] pend) (view (rest ++ [last])) →
      StreamSegs m sid foreign (entries [] pend) l') :
    Layout m sid foreign reads pend (view before ++ l') := by
  cases hreads : reads with
  | nil =>
    have hread := hb.read
    rw [hreads] at hread
    rw [ReadSegs.nil_iff.1 hread]
    exact hl
  | cons r rs =>
    rw [← hreads]
    left
    exact streamSegs_append.2 ⟨_, _, rfl, hb.read, hs (hb.segs (by simp [hreads]))⟩

end Cleanup

/-! ## Looking for the push node -/

/-- Whether a pop stops at a chunk: at a selection and at a mark for writing. -/
def Data.blocks : Data → Bool
  | select _ => true
  | mark _ readonly => !readonly
  | _ => false

def Vbuffer.Clear (b : Vbuffer) : Prop := ∀ c ∈ b.all, c.data.blocks = false

instance (b : Vbuffer) : Decidable b.Clear := inferInstanceAs (Decidable (∀ c ∈ b.all, _))

theorem Vbuffer.Clear.of_view {b b' : Vbuffer} (hb : b.Clear)
    (hs : (view b'.all).Sublist (view b.all)) : b'.Clear := by
  intro c hc
  obtain ⟨d, hd, he⟩ := mem_map.1 (hs.subset (mem_map_of_mem hc))
  have hdata : d.core.data = c.core.data := congrArg Chunk.data he
  rw [Chunk.core_data, Chunk.core_data] at hdata
  rw [← hdata]
  exact hb d hd

/-- Whether a chunk is an end node that a push left over. -/
def Data.isLeftOver (sid : ℕ) : Data → Bool
  | push _ stream chunk => decide (stream = sid) && chunk.isNone
  | _ => false

def Chunk.isLeftOver (sid : ℕ) (c : Chunk) : Bool := c.flags.ctl && c.data.isLeftOver sid

/-- What the scan goes over without the first left-over end node, if it has not met one before. -/
def dropLeft (sid : ℕ) (left : Bool) (l : List Chunk) : List Chunk :=
  if left then l else l.eraseP (Chunk.isLeftOver sid)

section Scan

variable {sid : ℕ} {target d : Data} {left modified keep : Bool} {moved kept rest : List Chunk}
  {chunk last : Chunk}

theorem isLeftOver_of_blocks (hd : d.blocks = true) : d.isLeftOver sid = false := by
  cases d <;> first | rfl | simp [Data.blocks] at hd

theorem dropLeft_cons : dropLeft sid left (chunk :: rest) =
    if left = false ∧ chunk.isLeftOver sid = true then rest
    else chunk :: dropLeft sid left rest := by
  cases left <;> cases hc : chunk.isLeftOver sid <;> simp [dropLeft, hc]

/-- What the scan does at a chunk. -/
theorem popScan_cons : popScan sid target left modified keep moved kept (chunk :: rest) last =
    if chunk.data = target then ⟨true, keep, moved, kept, chunk.orFlag modified :: rest, last⟩
    else if left = false ∧ chunk.isLeftOver sid = true then
      popScan sid target true (chunk.orFlag modified).flags.modified keep moved kept rest last
    else if (chunk.flags.ctl && chunk.data.blocks) = true then
      ⟨false, keep, moved, kept, chunk.orFlag modified :: rest, last⟩
    else if keep = true ∨ (chunk.flags.ctl && chunk.data.isMark) = true then
      popScan sid target left false true moved (kept ++ [chunk.orFlag modified]) rest last
    else popScan sid target left false false (moved ++ [chunk.orFlag modified]) kept rest last := by
  have hdata : (chunk.orFlag modified).data = chunk.data := rfl
  have hctl : (chunk.orFlag modified).flags.ctl = chunk.flags.ctl := rfl
  rw [popScan]
  simp only [hdata, hctl]
  unfold Chunk.isLeftOver
  cases chunk.flags.ctl with
  | false => simp
  | true =>
    cases chunk.data with
    | push a t k =>
      cases left <;> cases hk : k.isNone <;> simp [Data.isLeftOver, Data.blocks, Data.isMark, hk]
    | mark a readonly =>
      cases readonly <;> simp [Data.isLeftOver, Data.blocks, Data.isMark]
    | _ => simp [Data.isLeftOver, Data.blocks, Data.isMark]

variable {r : PopScan}

theorem popScan_sublist (hk : keep = false → kept = [])
    (hr : r = popScan sid target left modified keep moved kept rest last) :
    (view (r.moved ++ r.kept ++ r.after)).Sublist (view (moved ++ kept ++ rest)) ∧
      (r.keep = false → keep = false ∧ r.kept = []) ∧ r.last.core = last.core ∧
      r.last.flags.eof = last.flags.eof := by
  induction rest generalizing left modified keep moved kept with
  | nil =>
    subst hr
    exact ⟨by simp [popScan], fun h0 => ⟨h0, hk h0⟩, rfl, rfl⟩
  | cons chunk rest ih =>
    rw [popScan_cons] at hr
    split_ifs at hr with htarget hleft hblocks hkeep
    · subst hr
      exact ⟨by simp, fun h0 => ⟨h0, hk h0⟩, rfl, rfl⟩
    · obtain ⟨hs, hrest⟩ := ih hk hr
      refine ⟨hs.trans ?_, hrest⟩
      simp
    · subst hr
      exact ⟨by simp, fun h0 => ⟨h0, hk h0⟩, rfl, rfl⟩
    · obtain ⟨hs, hkeep', hlast⟩ := ih (fun h0 => by cases h0) hr
      exact ⟨by simpa using hs, fun h0 => absurd (hkeep' h0).1 (by simp), hlast⟩
    · have hno : keep = false := by simpa using fun h0 => hkeep (.inl h0)
      obtain rfl := hk hno
      obtain ⟨hs, hkeep', hlast⟩ := ih (fun _ => rfl) hr
      exact ⟨by simpa using hs, fun h0 => ⟨hno, (hkeep' h0).2⟩, hlast⟩

variable {foreign : Bool}

theorem popScan_target {n : Chunk} {W : List Chunk} (hn : n.data = target)
    (hrest : view (rest ++ [last]) = n :: W)
    (hr : r = popScan sid target left modified keep moved kept rest last) :
    r.found = true ∧ r.moved = moved ∧ r.kept = kept ∧ view (r.after ++ [r.last]) = n :: W := by
  cases rest with
  | nil =>
    obtain ⟨rfl, rfl⟩ := cons.inj hrest
    subst hr
    exact ⟨decide_eq_true hn, rfl, rfl, rfl⟩
  | cons chunk rest =>
    obtain ⟨rfl, hW⟩ := cons.inj hrest
    have hn' : (chunk.orFlag modified).data = target := hn
    rw [popScan, if_pos hn'] at hr
    subst hr
    exact ⟨rfl, rfl, rfl, by simpa [view] using hW⟩

/-- A scan that had gone over `seen` went over `X` up to the push node `n`, or up to the first chunk
that blocks. -/
def PopScan.Over (r : PopScan) (sid : ℕ) (left : Bool) (seen X : List Chunk) (n : Chunk)
    (W : List Chunk) : Prop :=
  (r.found = true ∧ (∀ c ∈ X, (c.flags.ctl && c.data.blocks) = false) ∧
    view (r.moved ++ r.kept) = seen ++ dropLeft sid left X ∧ view (r.after ++ [r.last]) = n :: W) ∨
  (r.found = false ∧ ∃ X₁ b X₂, X = X₁ ++ b :: X₂ ∧ b.data.blocks = true ∧
    view (r.moved ++ r.kept ++ r.after ++ [r.last]) =
      seen ++ dropLeft sid left X₁ ++ (b :: X₂ ++ n :: W))

theorem popScan_over {n : Chunk} {X W : List Chunk} (hn : n.data = target)
    (hX : ∀ c ∈ X, c.data ≠ target) (hrest : view (rest ++ [last]) = X ++ n :: W)
    (hk : keep = false → kept = [])
    (hr : r = popScan sid target left modified keep moved kept rest last) :
    r.Over sid left (view (moved ++ kept)) X n W := by
  induction X generalizing rest left modified keep moved kept with
  | nil =>
    obtain ⟨hf, hmv, hkp, ha⟩ := popScan_target hn hrest hr
    exact .inl ⟨hf, by simp, by simp [hmv, hkp, dropLeft], ha⟩
  | cons x X ih =>
    obtain ⟨hne, hXs⟩ := forall_mem_cons.1 hX
    cases rest with
    | nil => simp at hrest
    | cons c rest =>
      obtain ⟨rfl, hrest'⟩ := cons.inj hrest
      have hrest' : view (rest ++ [last]) = X ++ n :: W := hrest'
      rw [Chunk.core_data] at hne
      rw [popScan_cons, if_neg hne] at hr
      -- what the scan does behind the chunk, which stays or, left over, is dropped
      have hgo : ∀ {left' modified' keep' : Bool} {moved' kept' : List Chunk},
          (keep' = false → kept' = []) → (c.flags.ctl && c.data.blocks) = false →
          (∀ l, view (moved' ++ kept') ++ dropLeft sid left' l =
            view (moved ++ kept) ++ dropLeft sid left (c.core :: l)) →
          r = popScan sid target left' modified' keep' moved' kept' rest last →
          r.Over sid left (view (moved ++ kept)) (c.core :: X) n W := by
        intro left' modified' keep' moved' kept' hk' hb hl hr
        refine (ih hXs hrest' hk' hr).imp ?_ ?_
        · rintro ⟨hf, hbl, hv, ha⟩
          exact ⟨hf, forall_mem_cons.2 ⟨hb, hbl⟩, hv.trans (hl X), ha⟩
        · rintro ⟨hf, X1, b, X2, rfl, hb, hv⟩
          exact ⟨hf, c.core :: X1, b, X2, rfl, hb, hv.trans (by rw [hl])⟩
      have hcore : c.core.isLeftOver sid = c.isLeftOver sid := rfl
      split_ifs at hr with hleft hblocks hkeep
      · refine hgo hk ?_ (fun l => ?_) hr
        · cases hb : c.data.blocks
          · rw [Bool.and_false]
          · simp [Chunk.isLeftOver, isLeftOver_of_blocks hb] at hleft
        · rw [dropLeft_cons, hcore, if_pos hleft, dropLeft, if_pos rfl]
      · subst hr
        simp only [Bool.and_eq_true] at hblocks
        refine .inr ⟨rfl, [], c.core, X, rfl, hblocks.2, ?_⟩
        simpa [dropLeft] using hrest'
      · refine hgo (fun h0 => by cases h0) (by simpa using hblocks) (fun l => ?_) hr
        rw [dropLeft_cons, hcore, if_neg hleft]
        simp
      · obtain rfl := hk (by simpa using fun h0 => hkeep (.inl h0))
        refine hgo (fun _ => rfl) (by simpa using hblocks) (fun l => ?_) hr
        rw [dropLeft_cons, hcore, if_neg hleft]
        simp

theorem isLeft_iff : d.isLeft sid = true ↔ d = .null ∨ d.isLeftOver sid = true := by
  cases d <;> simp [Data.isLeft, Data.isLeftOver]

theorem Plain.not_leftOver (hc : Plain sid foreign chunk) : ¬chunk.isLeftOver sid = true := by
  intro hl
  have hleft := isLeft_iff.2 (.inr (Bool.and_eq_true_iff.1 hl).2)
  simp [hc.not_left] at hleft

variable {m : ℕ → List UInt8} {p : StreamChunk υ × List UInt8}
  {pend : List (StreamChunk υ × List UInt8)}

/-- The head of the queue, up to its push node. -/
theorem Layout.head {l : List Chunk} (hl : Layout m sid foreign [] (p :: pend) l) :
    ∃ X n W, l = X ++ n :: W ∧ (∀ c ∈ dropLeft sid false X, Plain sid foreign c) ∧
      bytesOf m (dropLeft sid false X) = p.2 ∧ IsNode sid p.1 n ∧
      StreamSegs m sid foreign (entries [] pend) W := by
  rcases hl with ⟨X, n, W, rfl, hX, hholds, hn, hW⟩ |
    ⟨V1, L, V2, rfl, hL, hnull, -, hV, X, n, W, hv, hX, hholds, hn, hW⟩
  · have heq : dropLeft sid false X = X := eraseP_of_forall_not fun c hc => (hX c hc).not_leftOver
    refine ⟨X, n, W, rfl, ?_, ?_, hn, hW⟩ <;> rw [heq]
    · exact hX
    · exact hholds p.2 rfl
  · obtain ⟨B, rfl, rfl⟩ : ∃ B, X = V1 ++ B ∧ V2 = B ++ n :: W := by
      rcases plain_place (A := []) hV hn.not_plain hv with ⟨B, h1, h2⟩ | ⟨A, h1, -⟩
      · exact ⟨B, h1, h2⟩
      · simp at h1
    have hleft : L.isLeftOver sid = true :=
      Bool.and_eq_true_iff.2 ⟨hL.2, (isLeft_iff.1 hL.1).resolve_left fun h0 => by simpa using hnull h0⟩
    have heq : dropLeft sid false (V1 ++ L :: B) = V1 ++ B := by
      rw [dropLeft, if_neg Bool.false_ne_true,
        eraseP_append_right _ fun c hc => (hV c hc).not_leftOver, eraseP_cons_of_pos hleft]
    refine ⟨V1 ++ L :: B, n, W, by simp, ?_, ?_, hn, hW⟩ <;> rw [heq]
    · exact hX
    · exact hholds p.2 rfl

/-- **Scan.** The scan stops at the push node of the head of the queue, with the chunks of the head
behind it, or at a chunk before that blocks, with the layout unchanged. -/
theorem scan_spec
    (hl : Layout m sid foreign [] (p :: pend) (view (rest ++ [last])))
    (hr : r = popScan sid (.push p.1.ctlData sid (some p.1.id)) false false keep [] [] rest last) :
    (r.found = true ∧ (∀ c ∈ r.moved ++ r.kept, Plain sid foreign c) ∧
      bytesOf m (r.moved ++ r.kept) = p.2 ∧
      ∃ n W, view (r.after ++ [r.last]) = n :: W ∧ IsNode sid p.1 n ∧
        StreamSegs m sid foreign (entries [] pend) W) ∨
    (r.found = false ∧ (∃ c ∈ rest ++ [last], c.data.blocks = true) ∧
      Layout m sid foreign [] (p :: pend) (view (r.moved ++ r.kept ++ r.after ++ [r.last])) ∧
      (StreamSegs m sid foreign (entries [] (p :: pend)) (view (rest ++ [last])) →
        StreamSegs m sid foreign (entries [] (p :: pend))
          (view (r.moved ++ r.kept ++ r.after ++ [r.last])))) := by
  obtain ⟨X, n, W, hv, hplain, hbytes, hn, hW⟩ := hl.head
  have hX : ∀ c ∈ X, c.data ≠ .push p.1.ctlData sid (some p.1.id) := by
    intro c hc hd
    have hmem : c ∈ dropLeft sid false X :=
      (mem_eraseP_of_neg (by simp [Chunk.isLeftOver, hd, Data.isLeftOver])).2 hc
    simpa [hd, Data.isPlain] using (hplain c hmem).data
  rcases popScan_over hn.data hX hv (fun _ => rfl) hr with
    ⟨hfound, -, hmk, hafter⟩ | ⟨hfound, X1, b, X2, rfl, hb, hst⟩
  · have hmk' : view (r.moved ++ r.kept) = dropLeft sid false X := hmk
    refine .inl ⟨hfound, plain_view.1 (by rwa [hmk']), ?_, n, W, hafter, hn, hW⟩
    rw [← bytesOf_view, hmk', hbytes]
  · have hblocks : ∃ c ∈ rest ++ [last], c.data.blocks = true := by
      obtain ⟨c, hc, rfl⟩ := mem_map.1 (show b ∈ view (rest ++ [last]) by simp [hv])
      exact ⟨c, hc, hb⟩
    have hsegs : StreamSegs m sid foreign (entries [] (p :: pend))
        (dropLeft sid false (X1 ++ b :: X2) ++ n :: W) :=
      ⟨_, n, W, rfl, hplain, fun bs h => hbytes.trans (Option.some.inj h), hn, hW⟩
    refine .inr ⟨hfound, hblocks, ?_⟩
    have hst' : view (r.moved ++ r.kept ++ r.after ++ [r.last]) =
      X1.eraseP (Chunk.isLeftOver sid) ++ (b :: X2 ++ n :: W) := hst
    rw [hst']
    -- the left-over end node was in front of the chunk, or is still there
    by_cases hany : ∃ c ∈ X1, c.isLeftOver sid = true
    · rw [dropLeft, if_neg Bool.false_ne_true, eraseP_append, if_pos (any_eq_true.2 hany),
        append_assoc] at hsegs
      exact ⟨.inl hsegs, fun _ => hsegs⟩
    · rw [eraseP_of_forall_not fun c hc hleft => hany ⟨c, hc, hleft⟩, ← append_assoc, ← hv]
      exact ⟨hl, id⟩

end Scan

/-! ## Pop -/

/-- What every pop leaves as it is: the memory, the stream's address, its end of stream flag, and
the chunks of its data, of which it only removes some. -/
structure PopFrame (h : Heap) (s : VbufferStream υ) (h' : Heap) (s' : VbufferStream υ) : Prop where
  mem : h'.mem = h.mem
  next : h.next ≤ h'.next
  id : s'.id = s.id
  eof : s'.data.last.flags.eof = s.data.last.flags.eof
  ids : ∀ i ∈ idsOf s'.data.all, i ∈ idsOf s.data.all
  clear : s.data.Clear → s'.data.Clear

theorem Pushable.pop {foreign : Bool} {h h' : Heap} {s s' : VbufferStream υ} {b : Vbuffer}
    (hb : Pushable foreign h s b) (hfr : PopFrame h s h' s') : Pushable foreign h' s' b :=
  ⟨hb.wf.mono hfr.mem hfr.next, fun i hi hm => hb.apart i hi (hfr.ids i hm),
    by rw [hfr.id]; exact hb.plain⟩

/-- The parts of the data where the scan of a pop stops, behind the read part that is left. -/
structure ScanParts (h : Heap) (s : VbufferStream υ) (reads : List (StreamChunk υ))
    (before : List Chunk) (r : PopScan) : Prop where
  wf : s.data.WF h
  parts : (view (before ++ (r.moved ++ r.kept ++ r.after))).Sublist (view s.data.body)
  last : r.last.core = s.data.last.core
  eof : r.last.flags.eof = s.data.last.flags.eof
  keep : r.keep = false → reads = [] ∧ r.kept = []

section Parts

variable {h : Heap} {s : VbufferStream υ} {reads : List (StreamChunk υ)} {before l : List Chunk}
  {r : PopScan}

theorem scanParts {rest : List Chunk} {target : Data} (hwf : s.data.WF h)
    (hsub : (before ++ rest).Sublist s.data.body)
    (hr : r = popScan s.id target false false (!reads.isEmpty) [] [] rest s.data.last) :
    ScanParts h s reads before r := by
  obtain ⟨hrsub, hkeep, hlast, heof⟩ := popScan_sublist (fun _ => rfl) hr
  refine ⟨hwf, ?_, hlast, heof, fun h0 => ⟨by simpa using (hkeep h0).1, (hkeep h0).2⟩⟩
  rw [view_append]
  refine List.Sublist.trans ((List.Sublist.refl _).append hrsub) ?_
  simpa [view] using hsub.map Chunk.core

variable (hs : ScanParts h s reads before r)

include hs

theorem ScanParts.ctl : r.last.flags.ctl = true := by
  rw [← Chunk.core_ctl, hs.last]
  exact hs.wf.lastCtl

theorem ScanParts.sublist (hl : (view l).Sublist (view (r.moved ++ r.kept ++ r.after))) :
    (view (Vbuffer.mk (before ++ l) r.last).all).Sublist (view s.data.all) := by
  have h1 : (view (before ++ l)).Sublist (view s.data.body) := by
    rw [view_append]
    refine List.Sublist.trans ((List.Sublist.refl _).append hl) ?_
    simpa using hs.parts
  simpa [Vbuffer.all, hs.last] using h1.append (List.Sublist.refl [s.data.last.core])

theorem ScanParts.wf_part (hl : (view l).Sublist (view (r.moved ++ r.kept ++ r.after))) :
    (Vbuffer.mk (before ++ l) r.last).WF h :=
  hs.wf.of_view (hs.sublist hl) hs.ctl

theorem ScanParts.removed {ctl : Chunk} {after : List Chunk} (ha : r.after = ctl :: after) :
    (view (vbufferChunkRemoveCtl before ctl after r.last).toVbuffer.all).Sublist
        (view s.data.all) ∧
      (vbufferChunkRemoveCtl before ctl after r.last).toVbuffer.WF h := by
  have hpart : (view after).Sublist (view (r.moved ++ r.kept ++ r.after)) := by
    rw [ha, view_append]
    exact List.Sublist.trans (by simp) (sublist_append_right _ _)
  have hsub : (view (vbufferChunkRemoveCtl before ctl after r.last).toVbuffer.all).Sublist _ :=
    removeCtl_view .. ▸ hs.sublist hpart
  exact ⟨hsub, hs.wf.of_view hsub (by cases after <;> exact hs.ctl)⟩

omit hs in
theorem ScanParts.wf_last (hs : ScanParts h s [] [] r) (d : Data) :
    (Vbuffer.mk [] { r.last with data := d }).WF h := by
  have hw : (Vbuffer.mk ([] ++ []) r.last).WF h := hs.wf_part (by simp)
  have h0 : r.last.size = 0 := hw.last_size
  refine hw.of_last (by simp) (hw.fresh r.last (by simp)) ⟨?_, fun _ => h0⟩ hs.ctl
  simp [Chunk.bytes, h0]

end Parts

/-- The scan of a pop: what it starts from and the parts of the data where it stops. -/
structure Scanned (h : Heap) (s : VbufferStream υ) (foreign : Bool) (reads : List (StreamChunk υ))
    (pend : List (StreamChunk υ × List UInt8)) (before rest : List Chunk) (r : PopScan) : Prop
    extends ScanParts h s reads before r where
  begun : Begun h.mem s.id foreign reads pend before rest s.data.last

section Pop

variable {foreign : Bool} {h : Heap} {s : VbufferStream υ} {reads : List (StreamChunk υ)}
  {pend : List (StreamChunk υ × List UInt8)} {before rest l : List Chunk} {r : PopScan}
  {b : Vbuffer} {last : Chunk}

/-- The scan found the push node of the head `p` of the queue. -/
structure FoundHead (h : Heap) (s : VbufferStream υ) (foreign : Bool) (p : StreamChunk υ × List UInt8)
    (pend : List (StreamChunk υ × List UInt8)) (r : PopScan) (n : Chunk) (W : List Chunk) : Prop where
  plain : ∀ c ∈ r.moved ++ r.kept, Plain s.id foreign c
  bytes : bytesOf h.mem (r.moved ++ r.kept) = p.2
  after : view (r.after ++ [r.last]) = n :: W
  node : IsNode s.id p.1 n
  segs : StreamSegs h.mem s.id foreign (entries [] pend) W

variable {p : StreamChunk υ × List UInt8} {n : Chunk} {W : List Chunk}

section

variable (hs : Scanned h s foreign reads (p :: pend) before rest r)
  (hf : FoundHead h s foreign p pend r n W)

include hs hf

theorem keep_layout :
    Layout h.mem s.id foreign (reads ++ [{ p.1 with userdata := none }]) pend
      (view (Vbuffer.mk (before ++ r.kept.map keptReadonly ++ r.after) r.last).all) := by
  have hread := hs.begun.read.snoc (fun c hc => hf.plain c (mem_append_right _ hc)) hf.node
  refine .inl (streamSegs_append.2 ⟨_, W, ?_, hread, hf.segs⟩)
  rw [Vbuffer.all, append_assoc _ r.after, view_append, hf.after]
  simp

theorem keep_bytes {h1 h2 : Heap} {clones : List Chunk}
    (hc : Clones h1 (r.kept.filter fun c => !c.flags.ctl) h2 clones) (hmem : h1.mem = h.mem) :
    bytesOf h2.mem (r.moved ++ clones) = p.2 := by
  have hvalid := (hs.wf_part (l := r.kept) (by simp)).valid_body
  rw [← hf.bytes, bytesOf_append, bytesOf_append, hc.mem, hc.bytes, hmem,
    bytesOf_filter_data fun c hc => hvalid c (by simp [hc])]

end

theorem move_last_fifo (hs : Scanned h s foreign [] (p :: pend) [] rest r)
    (hf : FoundHead h s foreign p pend r n W) (ha : r.after = []) :
    Fifo foreign ⟨h.next + 1, h.mem⟩ { s with
        data := ⟨[], { r.last with data := .push p.1.ctlData s.id none }⟩
        chunks := pend.map Prod.fst
        readChunks := [] } pend := by
  have hafter := hf.after
  rw [ha] at hafter
  obtain ⟨rfl, rfl⟩ := cons.inj hafter
  refine ⟨(hs.wf_last _).mono rfl (Nat.le_succ _), rfl,
    .inr ⟨[], _, [], rfl, ⟨?_, hs.ctl⟩, fun _ => rfl, rfl, by simp, hf.segs⟩⟩
  simp [Chunk.core, Data.isLeft]

variable {m : ℕ → List UInt8}

theorem size_of_valid (hb : ∀ c ∈ b.body, c.Valid m)
    (hl : b.last.size = 0) : vbufferSize b = (bytesOf m b.body).length := by
  rw [length_bytesOf hb]
  simp [vbufferSize, Vbuffer.all, hl]

/-- A pop of a stream with chunks: what the cleanup leaves, and the scan of it. -/
structure PopScanned (h : Heap) (s : VbufferStream υ) (foreign : Bool)
    (p : StreamChunk υ × List UInt8) (pend : List (StreamChunk υ × List UInt8))
    (reads : List (StreamChunk υ)) (before rest : List Chunk) (r : PopScan) : Prop where
  clean : _vbufferStreamCleanup s.data.body s.readChunks = (before ++ rest, reads)
  begin : popBegin ⟨before ++ rest, s.data.last⟩ reads = (before, rest)
  scan : r = popScan s.id (.push p.1.ctlData s.id (some p.1.id)) false false (!reads.isEmpty) [] []
    rest s.data.last
  scanned : Scanned h s foreign reads (p :: pend) before rest r
  left : (before ++ rest).Sublist s.data.body

theorem pop_scanned (hf : Fifo foreign h s (p :: pend)) (hfront : CleanFront s) :
    ∃ reads before rest r, PopScanned h s foreign p pend reads before rest r := by
  obtain ⟨body, reads, before, rest, hclean, hbegin, hsub, hb⟩ := begin_spec hf hfront
  obtain rfl : before ++ rest = body := by
    have := popBegin_append ⟨body, s.data.last⟩ reads
    rwa [hbegin] at this
  obtain ⟨r, hr⟩ : ∃ r, r = popScan s.id (.push p.1.ctlData s.id (some p.1.id)) false false
      (!reads.isEmpty) [] [] rest s.data.last := ⟨_, rfl⟩
  exact ⟨reads, before, rest, r, hclean, hbegin, hr, ⟨scanParts hf.wf hsub hr, hb⟩, hsub⟩

/-- **Pop.** A pop gives the head of the queue, or nothing and leaves the queue as it is. -/
theorem pop_fifo (hf : Fifo foreign h s pend) (hfront : CleanFront s) :
    ∃ h' s' out, vbufferStreamPop h s = (h', s', out) ∧ PopFrame h s h' s' ∧
      ((out = none ∧ (pend = [] ∨ ∃ c ∈ s.data.all, c.data.blocks = true) ∧
          Fifo foreign h' s' pend) ∨
        ∃ p pend' b, pend = p :: pend' ∧ out = some (b, p.1.userdata) ∧ b.content h' = p.2 ∧
          vbufferSize b = p.2.length ∧ Fifo foreign h' s' pend') := by
  cases pend with
  | nil =>
    unfold vbufferStreamPop
    rw [hf.chunks]
    exact ⟨h, s, none, rfl, ⟨rfl, le_refl _, rfl, rfl, fun _ hi => hi, id⟩,
      .inl ⟨rfl, .inl rfl, hf⟩⟩
  | cons p pend =>
    obtain ⟨reads, before, rest, r, hclean, hbegin, hr, hs, hleft⟩ := pop_scanned hf hfront
    have hb := hs.begun
    have heof := hs.eof
    unfold vbufferStreamPop
    simp only [hf.chunks, map_cons, hclean, hbegin, ← hr]
    rcases scan_spec hb.layout hr with
      ⟨hfound, hplain, hbytes, n, W, hW, hn, hsegs⟩ | ⟨hfound, ⟨c, hc, hblocks⟩, hl, hl'⟩
    · have hh : FoundHead h s foreign p pend r n W := ⟨hplain, hbytes, hW, hn, hsegs⟩
      simp only [hfound, if_true, vbufferCreateEmpty, _vbufferInit, vbufferChunkCreateEnd]
      have hvalid : ∀ c ∈ r.moved ++ r.kept, c.Valid h.mem := fun c hc =>
        (hs.wf_part (List.Sublist.refl _)).valid_body c (by simp only [mem_append] at hc ⊢; tauto)
      by_cases hk : r.keep = true
      · simp only [hk, if_true]
        have hcl := cloneChunks_spec .rw ⟨h.next + 1, h.mem⟩ (r.kept.filter fun c => !c.flags.ctl)
        have hnext := hcl.next
        dsimp only at hnext
        have hpart : (view (r.kept.map keptReadonly ++ r.after)).Sublist
            (view (r.moved ++ r.kept ++ r.after)) := by simp
        refine ⟨_, _, _, rfl, ⟨hcl.mem, by omega, rfl, heof, ?_, ?_⟩, .inr ⟨p, pend, _, rfl, rfl,
          keep_bytes hs hh hcl rfl, ?_, ?_, rfl, ?_⟩⟩
        · simpa using ids_of_view (hs.sublist hpart)
        · simpa using fun hclear : s.data.Clear => hclear.of_view (hs.sublist hpart)
        · rw [← keep_bytes hs hh hcl rfl, hcl.mem]
          refine size_of_valid (fun c hc => ?_) rfl
          rcases mem_append.1 hc with hc | hc
          · exact hvalid c (mem_append_left _ hc)
          · exact hcl.valid (fun d hd => hvalid d (mem_append_right _ (mem_filter.1 hd).1)) c hc
        · simpa using (hs.wf_part hpart).mono hcl.mem (by omega)
        · have hkept := keep_layout hs hh
          rw [hcl.mem]
          exact hkept
      · have hk' : r.keep = false := by simpa using hk
        obtain ⟨rfl, hkept⟩ := hs.keep hk'
        obtain rfl : before = [] := by simpa [view] using ReadSegs.nil_iff.1 hb.read
        simp only [hk', Bool.false_eq_true, if_false]
        have hout : bytesOf h.mem r.moved = p.2 := by simpa [hkept] using hbytes
        have hsize : ∀ out : Chunk, out.size = 0 →
            vbufferSize ⟨r.moved, out⟩ = p.2.length := fun out h0 => by
          rw [← hout]
          exact size_of_valid (fun c hc => hvalid c (mem_append_left _ hc)) h0
        cases ha : r.after with
        | nil =>
          refine ⟨_, _, _, rfl, ⟨rfl, Nat.le_succ _, rfl, heof, ?_, fun _ c hc => ?_⟩,
            .inr ⟨p, pend, _, rfl, rfl, hout, hsize _ rfl, move_last_fifo hs hh ha⟩⟩
          · have hlast := ids_of_view (hs.sublist (l := []) (by simp))
            exact hlast
          · obtain rfl : c = _ := mem_singleton.1 hc
            rfl
        | cons ctl after =>
          obtain ⟨hsub, hw⟩ := hs.removed ha
          have hW' : view (after ++ [r.last]) = W := by
            rw [ha] at hW
            exact (cons.inj hW).2
          refine ⟨_, _, _, rfl, ⟨rfl, Nat.le_succ _, rfl, ?_, ids_of_view hsub, fun hclear =>
            hclear.of_view hsub⟩, .inr ⟨p, pend, _, rfl, rfl, hout, hsize _ rfl,
              hw.mono rfl (Nat.le_succ _), rfl, ?_⟩⟩
          · rw [← heof]
            cases after <;> rfl
          · rw [removeCtl_view, nil_append, hW']
            exact .inl hsegs
    · simp only [hfound, Bool.false_eq_true, if_false]
      have hpart := List.Sublist.refl (view (r.moved ++ r.kept ++ r.after))
      have hall := (((sublist_append_right before rest).trans hleft).append_right _).subset hc
      refine ⟨h, _, none, rfl, ⟨rfl, le_refl _, rfl, heof, ?_, ?_⟩,
        .inl ⟨rfl, .inr ⟨c, hall, hblocks⟩, ?_, rfl, ?_⟩⟩
      · simpa using ids_of_view (hs.sublist hpart)
      · simpa using fun hclear : s.data.Clear => hclear.of_view (hs.sublist hpart)
      · simpa using hs.wf_part hpart
      · have := hb.layout_append hl hl'
        simpa [Vbuffer.all] using this

/-- **Progress.** Where nothing blocks it, a pop gives the head of the queue. -/
theorem pop_some (hf : Fifo foreign h s (p :: pend)) (hfront : CleanFront s)
    (hclear : s.data.Clear) :
    ∃ h' s' b, vbufferStreamPop h s = (h', s', some (b, p.1.userdata)) ∧ PopFrame h s h' s' ∧
      b.content h' = p.2 ∧ vbufferSize b = p.2.length ∧ Fifo foreign h' s' pend := by
  obtain ⟨h', s', out, heq, hfr, ⟨-, hnone, -⟩ | ⟨p', pend', b, hp, rfl, hb⟩⟩ := pop_fifo hf hfront
  · obtain ⟨c, hc, hblocks⟩ := hnone.resolve_left (cons_ne_nil _ _)
    exact absurd (hclear c hc) (by simp [hblocks])
  · obtain ⟨rfl, rfl⟩ := cons.inj hp
    exact ⟨h', s', b, heq, hfr, hb⟩

/-! ## The popped buffer -/

def Fronted (s : VbufferStream υ) : Prop :=
  s.readChunks = [] ∨ ∃ c body, s.data.body = c :: body ∧ c.data.isMark = true

theorem Fronted.cleanFront (hs : Fronted s) : CleanFront s := by
  intro hreads c hc
  rcases hs with h0 | ⟨d, body, hbody, hd⟩
  · exact absurd h0 hreads
  · rw [hbody, takeWhile_cons_of_neg (by simp [hd])] at hc
    cases hc

theorem cleanup_front (body : List Chunk) (reads : List (StreamChunk υ)) :
    (_vbufferStreamCleanup body reads).2 = [] ∨ (_vbufferStreamCleanup body reads).1 = [] ∨
      ∃ c l, (_vbufferStreamCleanup body reads).1 = c :: l ∧ c.data.isMark = true := by
  induction body generalizing reads with
  | nil => cases reads <;> exact .inr (.inl rfl)
  | cons c body ih =>
    cases reads with
    | nil => exact .inl rfl
    | cons read reads =>
      rw [_vbufferStreamCleanup]
      split_ifs with hmark hpush
      · exact .inr (.inr ⟨c, body, rfl, hmark⟩)
      · exact ih reads
      · exact ih (read :: reads)

theorem popScan_kept {target : Data} {left modified keep : Bool} {moved kept : List Chunk}
    (hk : keep = false ∧ kept = [] ∨ ∃ c l, kept = c :: l ∧ c.data.isMark = true)
    (hkeep : (popScan sid target left modified keep moved kept rest last).keep = true) :
    ∃ c l, (popScan sid target left modified keep moved kept rest last).kept = c :: l ∧
      c.data.isMark = true := by
  have hstop : keep = true → ∃ c l, kept = c :: l ∧ c.data.isMark = true := fun h0 =>
    hk.resolve_left fun hk => by simp [hk.1] at h0
  induction rest generalizing left modified keep moved kept with
  | nil => exact hstop hkeep
  | cons chunk rest ih =>
    rw [popScan_cons] at hkeep ⊢
    split_ifs at hkeep ⊢ with htarget hleft hblocks hmark
    · exact hstop hkeep
    · exact ih hk hkeep hstop
    · exact hstop hkeep
    · have hnew : ∃ c l, kept ++ [chunk.orFlag modified] = c :: l ∧ c.data.isMark = true := by
        rcases hk with ⟨rfl, rfl⟩ | ⟨c, l, rfl, hc⟩
        · exact ⟨_, [], rfl, (Bool.and_eq_true_iff.1 (hmark.resolve_left (by simp))).2⟩
        · exact ⟨c, l ++ [chunk.orFlag modified], rfl, hc⟩
      exact ih (.inr hnew) hkeep fun _ => hnew
    · exact ih (hk.imp_left fun hk => ⟨rfl, hk.2⟩) hkeep fun h0 => by cases h0

/-- A popped buffer, apart from what the stream keeps. -/
structure PoppedBuffer (h : Heap) (s : VbufferStream υ) (h' : Heap) (s' : VbufferStream υ)
    (x : Vbuffer) : Prop where
  wf : x.WF h'
  apart : s'.data.Apart x
  ids : ∀ i ∈ idsOf x.all, i ∈ idsOf s.data.all ∨ h.next ≤ i

/-- The chunks moved out of a buffer, with new ones behind them, form a buffer of their own. -/
theorem popped_of_moved (h' : Heap) {moved : List Chunk} (new : List Chunk)
    (out : Chunk) (hb : (Vbuffer.mk (before ++ (moved ++ l)) last).WF h) (hmem : h'.mem = h.mem)
    (hout : out.id = h.next ∧ out.size = 0 ∧ out.flags.ctl = true) (hlt : h.next < h'.next)
    (hnew : ∀ i ∈ idsOf new, h.next < i ∧ i < h'.next) (hnodup : (idsOf new).Nodup)
    (hvalid : ∀ c ∈ new, c.Valid h.mem) {d : Vbuffer}
    (hd : ∀ i ∈ idsOf d.all, i ∈ idsOf before ∨ i ∈ idsOf l ∨ i = last.id) :
    (Vbuffer.mk (moved ++ new) out).WF h' ∧ d.Apart ⟨moved ++ new, out⟩ ∧
      ∀ i ∈ idsOf (Vbuffer.mk (moved ++ new) out).all, i ∈ idsOf moved ∨ h.next ≤ i := by
  have hold : ∀ i ∈ idsOf (Vbuffer.mk (before ++ (moved ++ l)) last).all, i < h.next := by
    intro i hi
    obtain ⟨c, hc, rfl⟩ := (mem_idsOf _).1 hi
    exact hb.fresh c hc
  have hnd := hb.nodup
  simp only [Vbuffer.all_mk, idsOf_append, idsOf_cons, idsOf_nil, mem_append, mem_cons,
    not_mem_nil, or_false, nodup_append] at hold hnd
  have hmoved : ∀ i ∈ idsOf moved, i < h.next := fun i hi => hold i (by tauto)
  have hcases : ∀ i ∈ idsOf (Vbuffer.mk (moved ++ new) out).all,
      i ∈ idsOf moved ∨ h.next ≤ i ∧ i < h'.next := by
    intro i hi
    simp only [Vbuffer.all_mk, idsOf_append, idsOf_cons, idsOf_nil, mem_append, mem_singleton] at hi
    rcases hi with (hi | hi) | rfl
    · exact .inl hi
    · have := hnew i hi
      omega
    · omega
  refine ⟨⟨?_, fun c hc => ?_, fun c hc => ?_, hout.2.2⟩, fun i hi hdi => ?_,
    fun i hi => (hcases i hi).imp_right And.left⟩
  · simp only [Vbuffer.all_mk, idsOf_append, idsOf_cons, idsOf_nil, nodup_append,
      mem_append, mem_singleton]
    refine ⟨⟨hnd.1.2.1.1, hnodup, fun a ha b hb => ?_⟩, by simp, fun a ha b hb => ?_⟩
    · have := hmoved a ha
      have := hnew b hb
      omega
    · rcases ha with ha | ha
      · have := hmoved a ha
        omega
      · have := hnew a ha
        omega
  · rcases hcases c.id ((mem_idsOf _).2 ⟨c, hc, rfl⟩) with hi | hi
    · exact (hmoved c.id hi).trans hlt
    · exact hi.2
  · rw [hmem]
    simp only [Vbuffer.all_mk, mem_append, mem_singleton] at hc
    rcases hc with (hc | hc) | rfl
    · exact hb.valid c (by simp [hc])
    · exact hvalid c hc
    · exact ⟨by simp [Chunk.bytes, hout.2.1], fun _ => hout.2.1⟩
  · rcases hcases i hi with hi | hi
    · rcases hd i hdi with hdi | hdi | rfl
      · exact hnd.1.2.2 i hdi i (.inl hi) rfl
      · exact hnd.1.2.1.2.2 i hi i hdi rfl
      · exact hnd.2.2 _ (.inr (.inl hi)) _ rfl rfl
    · have : i < h.next := by
        rcases hd i hdi with hdi | hdi | rfl <;> exact hold _ (by tauto)
      omega

/-- **The popped buffer.** It is well formed and apart from the data of the stream, which starts at
a mark if it is held for readers. -/
theorem pop_buffer {h' : Heap} {s' : VbufferStream υ} {x : Vbuffer} {u : Option υ}
    (hf : Fifo foreign h s pend) (hfront : CleanFront s)
    (heq : vbufferStreamPop h s = (h', s', some (x, u))) :
    PoppedBuffer h s h' s' x ∧ Fronted s' := by
  cases pend with
  | nil =>
    unfold vbufferStreamPop at heq
    rw [hf.chunks] at heq
    cases heq
  | cons p pend =>
    obtain ⟨reads, before, rest, r, hclean, hbegin, hr, hs, -⟩ := pop_scanned hf hfront
    unfold vbufferStreamPop at heq
    simp only [hf.chunks, map_cons, hclean, hbegin, ← hr] at heq
    by_cases hfound : r.found = true
    swap
    · rw [if_neg hfound] at heq
      cases heq
    have hwf := hs.wf_part (List.Sublist.refl _)
    have hids : ∀ i ∈ idsOf r.moved, i ∈ idsOf s.data.all := fun i hi =>
      ids_of_view (hs.sublist (List.Sublist.refl _)) i (by simp [hi])
    simp only [hfound, if_true, vbufferCreateEmpty, _vbufferInit, vbufferChunkCreateEnd] at heq
    rw [append_assoc] at hwf
    by_cases hk : r.keep = true
    · simp only [hk, if_true, Prod.mk.injEq, Option.some.injEq] at heq
      obtain ⟨rfl, rfl, rfl, -⟩ := heq
      have hcl := cloneChunks_spec .rw ⟨h.next + 1, h.mem⟩ (r.kept.filter fun c => !c.flags.ctl)
      have hdata : ∀ i ∈
          idsOf (Vbuffer.mk (before ++ r.kept.map keptReadonly ++ r.after) r.last).all,
          i ∈ idsOf before ∨ i ∈ idsOf (r.kept ++ r.after) ∨ i = r.last.id := by
        intro i hi
        rw [← idsOf_view] at hi
        simpa [or_assoc] using hi
      obtain ⟨hx, ha, hi⟩ := popped_of_moved _ _
        ((endChunk h.next true).setWritable (r.after.headD r.last).flags.writable) hwf hcl.mem
        ⟨rfl, rfl, rfl⟩ hcl.next hcl.ids hcl.nodup
        (hcl.valid fun c hc => hwf.valid_body c (by simp [(mem_filter.1 hc).1])) hdata
      refine ⟨⟨hx, ha, fun i hmem => (hi i hmem).imp_left (hids i)⟩, .inr ?_⟩
      -- either the readers of before hold data behind a mark, or the scan met the first mark
      have hfirst : ∃ c l, before ++ r.kept = c :: l ∧ c.data.isMark = true := by
        cases reads with
        | nil =>
          obtain rfl : before = [] := by simpa [view] using ReadSegs.nil_iff.1 hs.begun.read
          rw [hr] at hk ⊢
          exact popScan_kept (.inl ⟨rfl, rfl⟩) hk
        | cons read reads =>
          obtain ⟨seg, d, l, hbefore, -⟩ := readSegs_cons.1 hs.begun.read
          have hne : before ≠ [] := by
            rintro rfl
            simp at hbefore
          obtain ⟨c, l, rfl⟩ := exists_cons_of_ne_nil hne
          have hfrontier := cleanup_front s.data.body s.readChunks
          rw [hclean] at hfrontier
          obtain h0 | h0 | ⟨d, l', hcons, hd⟩ := hfrontier
          · cases h0
          · cases h0
          · obtain ⟨rfl, -⟩ := cons.inj hcons
            exact ⟨c, l ++ r.kept, rfl, hd⟩
      obtain ⟨c, l, hcons, hc⟩ := hfirst
      cases before with
      | nil =>
        obtain ⟨c', l', hkept⟩ : ∃ c' l', r.kept = c' :: l' := ⟨c, l, hcons⟩
        obtain ⟨rfl, rfl⟩ := cons.inj (hkept.symm.trans hcons)
        refine ⟨keptReadonly c', l'.map keptReadonly ++ r.after, by simp [hkept], ?_⟩
        unfold keptReadonly
        split_ifs <;> exact hc
      | cons c' before =>
        obtain ⟨rfl, -⟩ := cons.inj hcons
        exact ⟨c', before ++ r.kept.map keptReadonly ++ r.after, by simp, hc⟩
    · have hk' : r.keep = false := by simpa using hk
      obtain ⟨rfl, hkept⟩ := hs.keep hk'
      simp only [hk', Bool.false_eq_true, if_false, Prod.mk.injEq, Option.some.injEq] at heq
      obtain ⟨rfl, hs', rfl, -⟩ := heq
      have hdata : ∀ i ∈ idsOf s'.data.all,
          i ∈ idsOf before ∨ i ∈ idsOf (r.kept ++ r.after) ∨ i = r.last.id := by
        intro i hi
        rw [← hs'] at hi
        cases hafter : r.after with
        | nil =>
          simp only [hafter] at hi
          simpa [hkept] using hi
        | cons ctl after =>
          simp only [hafter, vbufferChunkRemoveCtl, Cut.mapChunk_ids (remarks_orModified ctl)] at hi
          simp only [Cut.toVbuffer, Vbuffer.all_mk, idsOf_append, idsOf_cons, idsOf_nil,
            mem_append, mem_cons, not_mem_nil, or_false] at hi ⊢
          tauto
      obtain ⟨hx, ha, hi⟩ := popped_of_moved ⟨h.next + 1, h.mem⟩ []
        ((endChunk h.next true).setWritable (r.after.headD r.last).flags.writable) hwf rfl
        ⟨rfl, rfl, rfl⟩ (Nat.lt_succ_self _) (by simp) (by simp) (by simp) hdata
      rw [append_nil] at hx ha hi
      exact ⟨⟨hx, ha, fun i hmem => (hi i hmem).imp_left (hids i)⟩, .inl (by rw [← hs'])⟩

end Pop

end Haka
