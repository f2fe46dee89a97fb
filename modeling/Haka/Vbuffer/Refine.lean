import Haka.Lib.Machine
import Haka.Vbuffer.Position

/-!
# Edits refine byte-list edits

The content of a buffer is a byte list, however it is cut into chunks. Insertion, append,
extraction, erasure and replacement act on it as the corresponding list operations.
-/

namespace Haka

open List

/-! ## Well-formedness under edits -/

section WellFormed

variable {h : Heap} {P Q l l' : List Chunk} {e : Chunk}

theorem Vbuffer.WF.of_perm (hb : (Vbuffer.mk l e).WF h) (hp : l'.Perm l) :
    (Vbuffer.mk l' e).WF h := by
  have hmem : ∀ c ∈ (Vbuffer.mk l' e).all, c ∈ (Vbuffer.mk l e).all := by
    intro c hc
    simp only [Vbuffer.all_mk, mem_append] at hc ⊢
    exact hc.imp_left hp.mem_iff.1
  refine ⟨?_, fun c hc => hb.fresh c (hmem c hc), fun c hc => hb.valid c (hmem c hc), hb.lastCtl⟩
  have hall : (idsOf (Vbuffer.mk l' e).all).Perm (idsOf (Vbuffer.mk l e).all) :=
    (hp.append_right [e]).map Chunk.id
  exact hall.nodup_iff.2 hb.nodup

theorem Vbuffer.WF.of_sublist (hb : (Vbuffer.mk l e).WF h) (hs : l'.Sublist l) :
    (Vbuffer.mk l' e).WF h := by
  have hmem : ∀ c ∈ (Vbuffer.mk l' e).all, c ∈ (Vbuffer.mk l e).all := by
    intro c hc
    simp only [Vbuffer.all_mk, mem_append] at hc ⊢
    exact hc.imp_left fun hc => hs.subset hc
  refine ⟨?_, fun c hc => hb.fresh c (hmem c hc), fun c hc => hb.valid c (hmem c hc), hb.lastCtl⟩
  exact hb.nodup.sublist ((hs.append_right [e]).map Chunk.id)

theorem Vbuffer.WF.of_last {e' : Chunk} (hb : (Vbuffer.mk l e).WF h) (hid : e'.id ∉ idsOf l)
    (hlt : e'.id < h.next) (hv : e'.Valid h.mem) (hc : e'.flags.ctl = true) :
    (Vbuffer.mk l e').WF h := by
  refine ⟨?_, ?_, ?_, hc⟩
  · rw [Vbuffer.all_mk, idsOf_append, nodup_append]
    refine ⟨hb.nodup_body, by simp, ?_⟩
    rintro i hi j hj rfl
    have hj' : i = e'.id := by simpa using hj
    exact hid (hj' ▸ hi)
  · intro c hm
    simp only [Vbuffer.all_mk, mem_append, mem_singleton] at hm
    rcases hm with hm | rfl
    · exact hb.fresh c (by simp [hm])
    · exact hlt
  · intro c hm
    simp only [Vbuffer.all_mk, mem_append, mem_singleton] at hm
    rcases hm with hm | rfl
    · exact hb.valid c (by simp [hm])
    · exact hv

def Vbuffer.Apart (b d : Vbuffer) : Prop := ∀ i ∈ idsOf d.all, i ∉ idsOf b.all

instance (b d : Vbuffer) : Decidable (b.Apart d) :=
  inferInstanceAs (Decidable (∀ i ∈ idsOf d.all, i ∉ idsOf b.all))

theorem Vbuffer.Apart.symm {b d : Vbuffer} (h : b.Apart d) : d.Apart b :=
  fun i hi hm => h i hm hi

theorem Vbuffer.WF.insert {d : Vbuffer} (hb : (Vbuffer.mk (P ++ Q) e).WF h) (hd : d.WF h)
    (ha : (Vbuffer.mk (P ++ Q) e).Apart d) : (Vbuffer.mk (P ++ d.body ++ Q) e).WF h := by
  have hb' : (Vbuffer.mk (P ++ [] ++ Q) e).WF h := by simpa using hb
  refine hb'.replace rfl (le_refl _) hd.nodup_body (fun i hi => .inr ⟨?_, ?_⟩) hd.valid_body rfl
    (hb.valid e (by simp)) hb.lastCtl
  · have := ha i (by simp [Vbuffer.all, hi])
    simpa using this
  · obtain ⟨c, hc, rfl⟩ := (mem_idsOf _).1 hi
    exact hd.fresh c (by simp [Vbuffer.all, hc])

end WellFormed

/-- A change of the `modified` flag alone. -/
def Remarks (f : Chunk → Chunk) : Prop :=
  ∀ c, ∃ m, f c = { c with flags := { c.flags with modified := m } }

theorem remarks_markModified : Remarks Chunk.markModified := fun _ => ⟨true, rfl⟩

theorem remarks_orModified (ctl : Chunk) : Remarks fun c => c.orModified ctl := fun _ => ⟨_, rfl⟩

namespace Cut

variable {h : Heap} {k : Cut} {f : Chunk → Chunk}

@[simp] theorem mapChunk_before (f : Chunk → Chunk) (k : Cut) : (k.mapChunk f).before = k.before := by
  unfold mapChunk
  split <;> rfl

theorem mapChunk_bytes (m : ℕ → List UInt8) (hf : Remarks f) (k : Cut) :
    bytesOf m (k.mapChunk f).after = bytesOf m k.after := by
  obtain ⟨P, Q, e⟩ := k
  cases Q with
  | nil => rfl
  | cons c Q =>
    obtain ⟨x, hx⟩ := hf c
    simp only [mapChunk, bytesOf_cons, hx]
    rfl

section

variable (hf : Remarks f)

include hf

theorem mapChunk_items (k : Cut) : itemsOf (k.mapChunk f).after = itemsOf k.after := by
  obtain ⟨P, Q, e⟩ := k
  cases Q with
  | nil => rfl
  | cons c Q =>
    obtain ⟨x, hx⟩ := hf c
    simp only [mapChunk, itemsOf_cons, hx]
    rfl

theorem mapChunk_ctls (k : Cut) : ctlsOf (k.mapChunk f).after = ctlsOf k.after := by
  rw [ctlsOf_eq_items, mapChunk_items hf, ← ctlsOf_eq_items]

theorem mem_mapChunk {x : Chunk} (hx : x ∈ (k.mapChunk f).toVbuffer.all) :
    ∃ c ∈ k.toVbuffer.all, ∃ m, x = { c with flags := { c.flags with modified := m } } := by
  obtain ⟨P, Q, e⟩ := k
  cases Q with
  | nil =>
    simp only [mapChunk, toVbuffer, append_nil, Vbuffer.all_mk, mem_append, mem_singleton] at hx ⊢
    rcases hx with hx | rfl
    · exact ⟨x, .inl hx, x.flags.modified, rfl⟩
    · exact ⟨e, .inr rfl, hf e⟩
  | cons c Q =>
    simp only [mapChunk, toVbuffer, Vbuffer.all_mk, mem_append, mem_cons] at hx ⊢
    rcases hx with (hx | rfl | hx) | hx
    · exact ⟨x, by tauto, x.flags.modified, rfl⟩
    · exact ⟨c, by tauto, hf c⟩
    · exact ⟨x, by tauto, x.flags.modified, rfl⟩
    · exact ⟨x, by tauto, x.flags.modified, rfl⟩

theorem mapChunk_ids (k : Cut) :
    idsOf (k.mapChunk f).toVbuffer.all = idsOf k.toVbuffer.all := by
  obtain ⟨P, Q, e⟩ := k
  cases Q with
  | nil =>
    obtain ⟨x, hx⟩ := hf e
    simp [mapChunk, toVbuffer, hx]
  | cons c Q =>
    obtain ⟨x, hx⟩ := hf c
    simp [mapChunk, toVbuffer, hx]

theorem mapChunk_wf (hk : k.toVbuffer.WF h) : (k.mapChunk f).toVbuffer.WF h := by
  refine ⟨by rw [mapChunk_ids hf]; exact hk.nodup, fun x hx => ?_, fun x hx => ?_, ?_⟩
  · obtain ⟨c, hc, m, rfl⟩ := mem_mapChunk hf hx
    exact hk.fresh c hc
  · obtain ⟨c, hc, m, rfl⟩ := mem_mapChunk hf hx
    exact ⟨(hk.valid c hc).inBlock, (hk.valid c hc).ctlSize⟩
  · have hlast := hk.lastCtl
    obtain ⟨P, Q, e⟩ := k
    cases Q with
    | nil =>
      obtain ⟨x, hx⟩ := hf e
      simpa [mapChunk, toVbuffer, hx] using hlast
    | cons c Q => exact hlast

theorem mapChunk_writable (hk : k.toVbuffer.Writable) :
    (k.mapChunk f).toVbuffer.Writable := by
  intro x hx
  obtain ⟨c, hc, m, rfl⟩ := mem_mapChunk hf hx
  exact hk c hc

end

end Cut

/-! ## Removing a range -/

/-- What a removal leaves: the source cut where the range was, and the extracted buffer. -/
structure Removed (h : Heap) (b : Vbuffer) (lo hi : ℕ) (h' : Heap) (ext : Vbuffer) (k : Cut) :
    Prop where
  mem : h'.mem = h.mem
  next : h.next ≤ h'.next
  wf : k.toVbuffer.WF h'
  before : bytesOf h.mem k.before = (b.content h).take lo
  after : bytesOf h.mem k.after = (b.content h).drop hi
  writable : b.Writable → k.toVbuffer.Writable
  news : ∀ i ∈ idsOf k.toVbuffer.all, i ∈ idsOf b.all ∨ h.next ≤ i
  extWf : ext.WF h'
  extContent : bytesOf h.mem ext.body = ((b.content h).take hi).drop lo

variable {h h' : Heap} {b d : Vbuffer} {lo hi : ℕ} {data : Sub} {k : Cut}

theorem removed_of_carved {i j n : ℕ} {A R T : List Chunk} {e : Chunk} {w : Bool}
    (hc : Carved h b lo hi i j h' A R T e) (hn : NewId h h' (A ++ R ++ T ++ [e]) n) :
    Removed h b lo hi h' ⟨(R.foldl (Passed.pass false) ⟨[], [], []⟩).range, endChunk n w⟩
      ⟨A ++ (R.foldl (Passed.pass false) ⟨[], [], []⟩).moved ++
        (R.foldl (Passed.pass false) ⟨[], [], []⟩).skipped, T, e⟩ := by
  have hval : ∀ c ∈ A ++ R ++ T, c.Valid h.mem := by
    rw [← hc.mem]
    exact hc.wf.valid_body
  have hperm := Passed.foldl_perm false (s := ⟨[], [], []⟩) R
  have hctl := Passed.foldl_ctl false (s := ⟨[], [], []⟩) R (by simp)
  have hbytes := Passed.foldl_bytes false (s := ⟨[], [], []⟩) R
    fun c hR => hval c (by simp [hR])
  generalize R.foldl (Passed.pass false) ⟨[], [], []⟩ = s at hperm hctl hbytes ⊢
  have hsub : (A ++ s.moved ++ s.skipped ++ T).Sublist
      (A ++ (s.moved ++ s.skipped ++ s.range) ++ T) := by
    simp only [append_assoc]
    exact List.Sublist.append_left (List.Sublist.append_left (List.Sublist.append_left
      (sublist_append_right _ _) _) _) _
  have hAll : (A ++ (s.moved ++ s.skipped ++ s.range) ++ T).Perm (A ++ R ++ T) :=
    (hperm.append_left A).append_right T
  have hmem : ∀ c ∈ s.moved ++ s.skipped ++ s.range, c ∈ R := fun c hm => hperm.mem_iff.1 hm
  have hsubset : ∀ c ∈ A ++ s.moved ++ s.skipped ++ T, c ∈ A ++ R ++ T :=
    fun c hm => hAll.mem_iff.1 (hsub.subset hm)
  have hnil : bytesOf h.mem (s.moved ++ s.skipped) = [] :=
    bytesOf_eq_nil (fun c hm => hval c (by simp [hmem c (mem_append_left _ hm)])) hctl
  refine ⟨hc.mem, hc.next, (hc.wf.of_perm hAll).of_sublist hsub, ?_, hc.after, ?_, ?_, ?_, hbytes.trans hc.range⟩
  · rw [append_assoc, bytesOf_append, hnil, append_nil]
    exact hc.before
  · intro hb c hm
    apply hc.writable hb
    simp only [Cut.toVbuffer, Vbuffer.all_mk, mem_append (s := A ++ R ++ T)] at hm ⊢
    rw [mem_append] at hm
    exact hm.imp_left (hsubset c)
  · intro j hj
    apply hc.news
    obtain ⟨c, hm, rfl⟩ := (mem_idsOf _).1 hj
    refine (mem_idsOf _).2 ⟨c, ?_, rfl⟩
    simp only [Cut.toVbuffer, Vbuffer.all_mk, mem_append (s := A ++ R ++ T)] at hm ⊢
    rw [mem_append] at hm
    exact hm.imp_left (hsubset c)
  · have hrange : (Vbuffer.mk s.range e).WF h' := by
      refine (hc.wf.of_perm hAll).of_sublist ?_
      simp only [append_assoc]
      exact (((sublist_append_left _ _).trans (sublist_append_right _ _)).trans
        (sublist_append_right _ _)).trans (sublist_append_right _ _)
    refine hrange.of_last ?_ hn.upper ⟨by simp [Chunk.bytes, endChunk], fun _ => rfl⟩ rfl
    intro hm
    apply hn.notMem
    obtain ⟨c, hcm, hci⟩ := (mem_idsOf _).1 hm
    refine (mem_idsOf _).2 ⟨c, ?_, hci⟩
    have := hmem c (mem_append_right _ hcm)
    simp [this]

theorem extract_removed (mark : Bool) (hb : b.WF h) (hw : mark = true → b.Writable)
    (hc : b.Covers data lo hi) :
    ∃ h' ext k, _vbufferExtract h b data mark false = ⟨h', k.toVbuffer, some (ext, k)⟩ ∧
      Removed h b lo hi h' ext k := by
  obtain ⟨h', A, R, T, e, n, w, hcarved, hn, -, heq⟩ := extract_spec false hb hw hc
  exact ⟨h', _, _, heq, removed_of_carved hcarved hn⟩

/-! ## What the chunks keep -/

section Kept

variable {Q : Chunk → Prop} {h h' : Heap} {b : Vbuffer} {pos : Iterator} {mark : Bool}

/-- A chunk that was cut out of another one. -/
structure Chunk.IsPart (c d : Chunk) : Prop where
  data : c.data = d.data
  ctl : c.flags.ctl = d.flags.ctl
  writable : c.flags.writable = d.flags.writable
  size : c.size ≤ d.size

def KeepsParts (Q : Chunk → Prop) : Prop := ∀ c d : Chunk, c.IsPart d → Q d → Q c

/-- The property says nothing of a chunk but its data and whether it is a control chunk. -/
def KeepsKind (Q : Chunk → Prop) : Prop :=
  ∀ c d : Chunk, c.data = d.data → c.flags.ctl = d.flags.ctl → Q d → Q c

theorem KeepsKind.parts (hQ : KeepsKind Q) : KeepsParts Q :=
  fun c d hp hd => hQ c d hp.data hp.ctl hd

theorem splitChunk_part (h : Heap) (mark : Bool) {c : Chunk} {off : ℕ} (ho : off ≤ c.size) :
    ∀ x ∈ (splitChunk h (c.markIf mark) off).2.1 ++ (splitChunk h (c.markIf mark) off).2.2,
      x.IsPart c := by
  intro x hx
  unfold splitChunk at hx
  split_ifs at hx
  · obtain rfl : x = c.markIf mark := by simpa using hx
    exact ⟨by simp, by simp, by simp, by simp⟩
  · obtain rfl : x = c.markIf mark := by simpa using hx
    exact ⟨by simp, by simp, by simp, by simp⟩
  · rcases mem_append.1 hx with hx | hx <;> obtain rfl := mem_singleton.1 hx
    · exact ⟨by simp [Chunk.left], by simp [Chunk.left], by simp [Chunk.left], by simpa [Chunk.left]⟩
    · exact ⟨by simp [Chunk.right], by simp [Chunk.right], by simp [Chunk.right],
        by simp [Chunk.right]⟩

/-- The chunks of `l'` are parts of those of `l`, each of which leaves a part with its mark. -/
structure InParts (l l' : List Chunk) : Prop where
  parts : ∀ c ∈ l', ∃ d ∈ l, c.IsPart d
  marks : ∀ d ∈ l, ∃ c ∈ l', d.flags.modified = true → c.flags.modified = true

variable {l l' l'' : List Chunk}

theorem inParts_of_mem (h : ∀ c, c ∈ l ↔ c ∈ l') : InParts l l' :=
  ⟨fun c hc => ⟨c, (h c).2 hc, rfl, rfl, rfl, le_rfl⟩, fun d hd => ⟨d, (h d).1 hd, id⟩⟩

theorem InParts.trans (h : InParts l l') (h' : InParts l' l'') : InParts l l'' := by
  refine ⟨fun c hc => ?_, fun d hd => ?_⟩
  · obtain ⟨d, hd, hcd⟩ := h'.parts c hc
    obtain ⟨e, he, hde⟩ := h.parts d hd
    exact ⟨e, he, hcd.data.trans hde.data, hcd.ctl.trans hde.ctl, hcd.writable.trans hde.writable,
      hcd.size.trans hde.size⟩
  · obtain ⟨c, hc, hdc⟩ := h.marks d hd
    obtain ⟨e, he, hce⟩ := h'.marks c hc
    exact ⟨e, he, hce ∘ hdc⟩

theorem InParts.forall_mem (h : InParts l l') (hQ : KeepsParts Q) (hl : ∀ c ∈ l, Q c) :
    ∀ c ∈ l', Q c := by
  intro c hc
  obtain ⟨d, hd, hcd⟩ := h.parts c hc
  exact hQ c d hcd (hl d hd)

theorem splitChunk_inParts (h : Heap) (mark : Bool) {c : Chunk} {off : ℕ} (ho : off ≤ c.size)
    (P R : List Chunk) : InParts (P ++ c :: R) (P ++ (splitChunk h (c.markIf mark) off).2.1 ++
      ((splitChunk h (c.markIf mark) off).2.2 ++ R)) := by
  have hpart := splitChunk_part h mark ho
  have hmark : ∃ x ∈ (splitChunk h (c.markIf mark) off).2.1 ++
      (splitChunk h (c.markIf mark) off).2.2, c.flags.modified = true → x.flags.modified = true := by
    unfold splitChunk
    split_ifs <;> simp +contextual [Chunk.left, Chunk.markIf_modified]
  generalize splitChunk h (c.markIf mark) off = r at hpart hmark
  refine ⟨fun x hx => ?_, fun d hd => ?_⟩
  · by_cases hc : x ∈ r.2.1 ++ r.2.2
    · exact ⟨c, by simp, hpart x hc⟩
    · refine ⟨x, ?_, rfl, rfl, rfl, le_rfl⟩
      simp only [mem_append, mem_cons] at hx hc ⊢
      tauto
  · simp only [mem_append, mem_cons] at hd hmark ⊢
    rcases hd with hd | rfl | hd
    · exact ⟨d, by tauto, id⟩
    · obtain ⟨x, hx, hm⟩ := hmark
      exact ⟨x, by tauto, hm⟩
    · exact ⟨d, by tauto, id⟩

theorem split_inParts (heq : _vbufferIteratorSplit h b pos mark = (h', some k)) :
    InParts b.body (k.before ++ k.after) ∧
      (b.last.flags.modified = true → k.last.flags.modified = true) ∧
      (mark = false → k.last = b.last) := by
  obtain ⟨-, -, rfl, -⟩ | ⟨P, iter, rest, off, -, hbody, ho, -, -, rfl⟩ := split_inv heq
  · refine ⟨inParts_of_mem (by simp), fun hm => ?_, ?_⟩
    · simp [Chunk.markIf_modified, hm]
    · rintro rfl
      rfl
  · rw [hbody]
    exact ⟨splitChunk_inParts h mark ho P rest, id, fun _ => rfl⟩

theorem extractLoop_inParts {size : Option ℕ} {endId : ℕ} {ins : Bool} {s : Passed}
    {r : Heap × Passed × List Chunk × Bool} (P : List Chunk)
    (hr : extractLoop h size endId mark ins s l = r) :
    InParts (P ++ (s.moved ++ s.skipped ++ s.range ++ l))
      (P ++ (r.2.1.moved ++ r.2.1.skipped ++ r.2.1.range ++ r.2.2.1)) := by
  have hpass : ∀ (s : Passed) (iter : Chunk) (rest : List Chunk),
      InParts (P ++ (s.moved ++ s.skipped ++ s.range ++ iter :: rest))
        (P ++ ((s.pass ins iter).moved ++ (s.pass ins iter).skipped ++ (s.pass ins iter).range ++
          rest)) := by
    refine fun s iter rest => inParts_of_mem fun c => ?_
    unfold Passed.pass
    split_ifs <;> simp only [mem_append, mem_cons, not_mem_nil, or_false] <;> tauto
  subst hr
  fun_induction extractLoop h size endId mark ins s l with
  | case1 => exact inParts_of_mem fun _ => .rfl
  | case2 s iter rest size hsize ih => exact (hpass s iter rest).trans ih
  | case3 => exact inParts_of_mem fun _ => .rfl
  | case4 s iter rest size hsize hro h1 l r hsplit =>
    have hparts := splitChunk_inParts h mark (not_lt.1 hsize)
      (P ++ (s.moved ++ s.skipped ++ s.range)) rest
    rw [hsplit] at hparts
    simpa only [append_assoc] using hparts
  | case5 => exact inParts_of_mem fun _ => .rfl
  | case6 s iter rest hid ih => exact (hpass s iter rest).trans ih

/-- An extraction leaves and takes out parts of the chunks of `b`: all are left, or those of the
range are taken out. -/
def ExtractResult.PartsOf (r : ExtractResult) (b : Vbuffer) (mark ins : Bool) : Prop :=
  ∃ before s rest last, InParts b.body (before ++ (s.moved ++ s.skipped ++ s.range ++ rest)) ∧
    (b.last.flags.modified = true → last.flags.modified = true) ∧ (mark = false → last = b.last) ∧
    (r.source = ⟨before ++ (s.moved ++ s.skipped ++ s.range ++ rest), last⟩ ∧ r.extracted = none ∨
      ∃ h buffer, r = extractDone h before s rest last buffer ins)

theorem partsOf_self (h : Heap) (b : Vbuffer) (mark ins : Bool) :
    (ExtractResult.mk h b none).PartsOf b mark ins :=
  ⟨b.body, ⟨[], [], []⟩, [], b.last, inParts_of_mem (by simp), id, fun _ => rfl, .inl (by simp)⟩

theorem extractFrom_partsOf (h : Heap) (b : Vbuffer) (begin : Iterator) (size : Option ℕ) (endId : ℕ)
    (mark ins : Bool) : (extractFrom h b begin size endId mark ins).PartsOf b mark ins := by
  unfold extractFrom
  rcases hsplit : _vbufferIteratorSplit h b (vbufferIteratorCopy begin) mark with ⟨h1, _ | k⟩
  · exact partsOf_self h1 b mark ins
  obtain ⟨hparts, hmark, hlast⟩ := split_inParts hsplit
  dsimp only
  split_ifs
  · rcases hloop : extractLoop (_vbufferInit h1 k.chunk.flags.writable).1 size endId mark ins
      ⟨[], [], []⟩ k.after with ⟨h2, s, rest, ok⟩
    refine ⟨k.before, s, rest, k.last, hparts.trans (extractLoop_inParts k.before hloop), hmark,
      hlast, ?_⟩
    cases ok with
    | true => exact .inr ⟨h2, _, rfl⟩
    | false => exact .inl ⟨by simp, rfl⟩
  · refine ⟨k.before, ⟨[], [], _⟩, _, k.last, hparts.trans (inParts_of_mem fun c => ?_), hmark,
      hlast, .inr ⟨_, _, rfl⟩⟩
    simp [takeWhile_append_dropWhile]

/-- **What an extraction leaves.** -/
theorem extract_partsOf (h : Heap) (b : Vbuffer) (data : Sub) (mark ins : Bool) :
    (_vbufferExtract h b data mark ins).PartsOf b mark ins := by
  unfold _vbufferExtract
  split_ifs
  · cases data with
    | sized begin length => exact extractFrom_partsOf h b begin (some length) 0 mark ins
    | between begin «end» =>
      dsimp only
      rcases hsplit : _vbufferIteratorSplit h b (vbufferIteratorCopy «end») mark with ⟨h1, _ | k⟩
      · exact partsOf_self h1 b mark ins
      obtain ⟨hparts, hmark, hlast⟩ := split_inParts hsplit
      obtain ⟨before, s, rest, last, hparts', hmark', hlast', hr⟩ :=
        extractFrom_partsOf h1 k.toVbuffer begin none k.chunk.id mark ins
      exact ⟨before, s, rest, last, hparts.trans hparts', hmark' ∘ hmark,
        fun hm => (hlast' hm).trans (hlast hm), hr⟩
  · exact partsOf_self h b mark ins

/-- What holds of the chunks of a source, of their parts and of the node of a selection holds of
what an extraction leaves and takes out. -/
theorem extract_parts (hQ : KeepsParts Q) (hb : ∀ c ∈ b.body, Q c) (h : Heap) (data : Sub)
    (mark ins : Bool)
    (hins : ins = true → ∀ c : Chunk, c.flags.ctl = true → c.data.isSelect = true → Q c) :
    (∀ c ∈ (_vbufferExtract h b data mark ins).source.body, Q c) ∧
      ∀ x ∈ (_vbufferExtract h b data mark ins).extracted, ∀ c ∈ x.1.body, Q c := by
  obtain ⟨before, s, rest, last, hparts, -, -, hr⟩ := extract_partsOf h b data mark ins
  have hall := hparts.forall_mem hQ hb
  rcases hr with ⟨hsource, hnone⟩ | ⟨h', buffer, hdone⟩
  · rw [hsource, hnone]
    exact ⟨hall, by simp⟩
  rw [hdone]
  simp only [mem_append] at hall
  refine ⟨fun c hc => ?_, fun x hx c hc => ?_⟩
  · cases ins with
    | false =>
      refine hall c ?_
      simp only [extractDone, Bool.false_eq_true, if_false, Cut.toVbuffer, mem_append] at hc
      tauto
    | true =>
      simp only [extractDone, vbufferChunkInsertCtl, Cut.insert, if_true, mem_append,
        mem_singleton] at hc
      rcases hc with (hc | rfl) | hc
      · exact hall c (by tauto)
      · exact hins rfl _ rfl rfl
      · exact hall c (by tauto)
  · cases ins <;> obtain rfl := Option.some.inj hx <;> exact hall c (.inr (.inl (.inr hc)))

theorem extract_forall (hQ : KeepsParts Q) (hb : ∀ c ∈ b.body, Q c) (h : Heap) (data : Sub)
    (mark ins : Bool) (hins : ins = true → ∀ c : Chunk, c.flags.ctl = true → Q c) :
    ∀ c ∈ (_vbufferExtract h b data mark ins).source.body, Q c :=
  (extract_parts hQ hb h data mark ins fun h0 c hc _ => hins h0 c hc).1

theorem extract_last (h : Heap) (b : Vbuffer) (data : Sub) (ins : Bool) :
    (_vbufferExtract h b data false ins).source.last = b.last := by
  obtain ⟨before, s, rest, last, -, -, hlast, hr⟩ := extract_partsOf h b data false ins
  rw [← hlast rfl]
  rcases hr with ⟨hsource, -⟩ | ⟨h', buffer, hdone⟩
  · rw [hsource]
  · rw [hdone]
    cases ins <;> rfl

end Kept

/-! ## The refinement -/

theorem content_insert (m : ℕ → List UInt8) (k : Cut) (l : List Chunk) :
    bytesOf m (k.insert l).body = bytesOf m k.before ++ bytesOf m l ++ bytesOf m k.after := by
  simp [Cut.insert]

variable {pos : Iterator}

theorem insert_content (d : Vbuffer) (hb : b.WF h) (hw : b.Writable) (hr : b.InRange pos) :
    (vbufferIteratorInsert h b pos d).sub.isSome = true ∧
      (vbufferIteratorInsert h b pos d).buffer.content (vbufferIteratorInsert h b pos d).heap =
        (b.content h).take (b.offsetOf pos) ++ d.content h ++ (b.content h).drop (b.offsetOf pos) ∧
      (vbufferIteratorInsert h b pos d).source.body = [] := by
  obtain ⟨h', k, hsplit, hat⟩ := split_spec hb hr fun _ : true = true => hw
  unfold vbufferIteratorInsert
  rw [if_pos hr.check]
  by_cases hd : vbufferIsempty d = true
  · have hbody : d.body = [] := by simpa [vbufferIsempty] using hd
    rw [if_pos hd]
    refine ⟨rfl, ?_, hbody⟩
    have hnil : d.content h = [] := by
      unfold Vbuffer.content
      rw [hbody]
      rfl
    rw [hnil, append_nil, take_append_drop]
  · rw [if_neg hd, hsplit]
    refine ⟨rfl, ?_, rfl⟩
    unfold Vbuffer.content
    rw [content_insert, hat.mem, hat.before, hat.after]
    rfl

theorem append_content (h : Heap) (b d : Vbuffer) :
    (vbufferAppend b d).1.content h = b.content h ++ d.content h := by
  exact bytesOf_append _ _ _

theorem Removed.content {ext : Vbuffer} (hr : Removed h b lo hi h' ext k) :
    k.toVbuffer.content h' = (b.content h).take lo ++ (b.content h).drop hi := by
  unfold Vbuffer.content Cut.toVbuffer
  rw [bytesOf_append, hr.mem, hr.before, hr.after]
  rfl

theorem replace_content (d : Vbuffer) (hb : b.WF h) (hw : b.Writable) (hc : b.Covers data lo hi) :
    ∃ h' src new, vbufferReplace h b data d = (h', src, some new) ∧
      src.content h' = (b.content h).take lo ++ d.content h ++ (b.content h).drop hi := by
  obtain ⟨h', ext, k, heq, hr⟩ := extract_removed true hb (fun _ => hw) hc
  unfold vbufferReplace
  rw [heq]
  refine ⟨h', _, _, rfl, ?_⟩
  unfold Vbuffer.content
  rw [content_insert, Cut.markModified, Cut.mapChunk_before,
    Cut.mapChunk_bytes _ remarks_markModified, hr.mem, hr.before, hr.after]
  rfl

/-- **Edits refine byte-list edits.** On a writable buffer, under any fragmentation, every edit at
an in-range position or on a well-formed sub acts on the content as the list operation. -/
theorem buffer_edits_refine {h : Heap} {b : Vbuffer} (hb : b.WF h) (hw : b.Writable) :
    (∀ pos d, b.InRange pos → (vbufferIteratorInsert h b pos d).sub.isSome = true ∧
      (vbufferIteratorInsert h b pos d).buffer.content (vbufferIteratorInsert h b pos d).heap =
        (b.content h).take (b.offsetOf pos) ++ d.content h ++ (b.content h).drop (b.offsetOf pos) ∧
      (vbufferIteratorInsert h b pos d).source.body = []) ∧
    (∀ d, (vbufferAppend b d).1.content h = b.content h ++ d.content h) ∧
    ∀ data lo hi, b.Covers data lo hi →
      (∃ h' src ext, vbufferExtract h b data = (h', src, some ext) ∧
        src.content h' = (b.content h).take lo ++ (b.content h).drop hi ∧
        ext.content h' = ((b.content h).take hi).drop lo) ∧
      (∃ h' src, vbufferErase h b data = (h', src, true) ∧
        src.content h' = (b.content h).take lo ++ (b.content h).drop hi) ∧
      ∀ d, ∃ h' src new, vbufferReplace h b data d = (h', src, some new) ∧
        src.content h' = (b.content h).take lo ++ d.content h ++ (b.content h).drop hi := by
  refine ⟨fun pos d hr => insert_content d hb hw hr, append_content h b, fun data lo hi hc => ?_⟩
  obtain ⟨h', ext, k, heq, hr⟩ := extract_removed true hb (fun _ => hw) hc
  have hext : ext.content h' = ((b.content h).take hi).drop lo := by
    rw [← hr.extContent, ← hr.mem]
    rfl
  refine ⟨⟨h', k.toVbuffer, ext, ?_, hr.content, hext⟩, ⟨h', k.toVbuffer, ?_, hr.content⟩,
    fun d => replace_content d hb hw hc⟩
  · unfold vbufferExtract
    rw [heq]
    rfl
  · unfold vbufferErase
    rw [heq]
    rfl

def helloHeap : Heap :=
  ⟨9, fun a => if a = 1 then [104, 101, 108] else if a = 2 then [108, 111] else []⟩

/-- The bytes "hello" in two blocks, with a mark and an empty chunk between them. -/
def helloBuffer : Vbuffer :=
  ⟨[⟨3, ⟨false, false, true, false⟩, .basic 1, 0, 3⟩, ⟨4, ⟨false, false, true, true⟩, .mark 5 true, 0, 0⟩,
    ⟨6, ⟨false, false, true, false⟩, .basic 2, 1, 0⟩, ⟨7, ⟨false, false, true, false⟩, .basic 2, 0, 2⟩],
    endChunk 8 true⟩

theorem helloBuffer_wf : helloBuffer.WF helloHeap := by
  decide

theorem helloBuffer_writable : helloBuffer.Writable := by
  unfold Vbuffer.Writable
  decide

/-- Erasing "ell" across the two blocks. -/
theorem buffer_edits_refine_hello : helloBuffer.WF helloHeap ∧ helloBuffer.Writable ∧
      ∃ h' src, vbufferErase helloHeap helloBuffer (vbufferSubCreate helloBuffer 1 (some 3)) =
        (h', src, true) ∧ src.content h' = [104, 111] :=
  ⟨helloBuffer_wf, helloBuffer_writable,
    ((buffer_edits_refine helloBuffer_wf helloBuffer_writable).2.2 _ _ _
      (subCreate_covers 1 3 helloBuffer_wf)).2.1⟩

/-! ## New buffers -/

def Heap.Clean (h : Heap) : Prop := ∀ a, h.next ≤ a → h.mem a = []

theorem bytes_update {c : Chunk} (str : List UInt8) (hh : h.Clean) (hc : c.Valid h.mem) :
    c.bytes (Function.update h.mem h.next str) = c.bytes h.mem := by
  by_cases ha : c.data.addr = h.next
  · have hnil : c.bytes h.mem = [] := by
      unfold Chunk.bytes
      rw [ha, hh _ (le_refl _)]
      simp
    have hsize : c.size = 0 := by
      rw [← hc.inBlock, hnil]
      rfl
    rw [hnil]
    unfold Chunk.bytes
    rw [hsize, take_zero]
  · unfold Chunk.bytes
    rw [Function.update_of_ne ha]

theorem bytesOf_update {l : List Chunk} (str : List UInt8) (hh : h.Clean)
    (hl : ∀ c ∈ l, c.Valid h.mem) :
    bytesOf (Function.update h.mem h.next str) l = bytesOf h.mem l := by
  exact flatMap_congr fun c hc => bytes_update str hh (hl c hc)

/-- A buffer made by `vbuffer_create_from`, and the buffers that were there before. -/
structure Created (h : Heap) (str : List UInt8) (h' : Heap) (d : Vbuffer) : Prop where
  clean : h'.Clean
  next : h.next ≤ h'.next
  wf : d.WF h'
  writable : d.Writable
  content : d.content h' = str
  ids : ∀ i ∈ idsOf d.all, h.next ≤ i ∧ i < h'.next
  others : ∀ b : Vbuffer, b.WF h → b.WF h' ∧ b.content h' = b.content h

theorem createFrom_spec (str : List UInt8) (hh : h.Clean) :
    Created h str (vbufferCreateFrom h str).1 (vbufferCreateFrom h str).2 := by
  have hmem : (vbufferCreateFrom h str).1.mem = Function.update h.mem h.next str := rfl
  have hnext : (vbufferCreateFrom h str).1.next = h.next + 3 := rfl
  have hall : (vbufferCreateFrom h str).2.all =
      [⟨h.next + 1, ⟨false, false, true, false⟩, .basic h.next, 0, str.length⟩,
        endChunk (h.next + 2) true] := rfl
  refine ⟨?_, by omega, ⟨?_, ?_, ?_, rfl⟩, ?_, ?_, ?_, fun b hb => ⟨⟨hb.nodup, ?_, ?_, hb.lastCtl⟩, ?_⟩⟩
  · intro a ha
    rw [hmem, Function.update_of_ne (by omega)]
    exact hh a (by omega)
  · rw [hall]
    simp [endChunk]
  · rw [hall, hnext]
    simp [endChunk]
  · rw [hall, hmem]
    simp only [mem_cons, not_mem_nil, or_false, forall_eq_or_imp, forall_eq]
    refine ⟨⟨?_, by simp⟩, ⟨by simp [Chunk.bytes, endChunk], fun _ => rfl⟩⟩
    simp [Chunk.bytes, Data.addr]
  · intro c hc
    rw [hall] at hc
    simp only [mem_cons, not_mem_nil, or_false] at hc
    rcases hc with rfl | rfl <;> rfl
  · show bytesOf _ [_] = str
    rw [hmem]
    simp [Chunk.bytes, Data.addr]
  · rw [hall, hnext]
    simp [endChunk]
  · intro c hc
    have := hb.fresh c hc
    omega
  · intro c hc
    have hv := hb.valid c hc
    refine ⟨?_, hv.ctlSize⟩
    rw [hmem, bytes_update str hh hv]
    exact hv.inBlock
  · unfold Vbuffer.content
    rw [hmem, bytesOf_update str hh hb.valid_body]

/-! ## Runs of edits -/

/-- An edit of a buffer, its positions given by offsets and its data by bytes. -/
inductive Edit where
  | insert (p : ℕ) (d : List UInt8)
  | append (d : List UInt8)
  | extract (a n : ℕ)
  | erase (a n : ℕ)
  | replace (a n : ℕ) (d : List UInt8)

/-- The edit of the buffer: the new state, and the bytes taken out if it succeeded. -/
def Edit.apply (s : Heap × Vbuffer) : Edit → (Heap × Vbuffer) × Option (List UInt8)
  | insert p d =>
    let (h, buffer) := vbufferCreateFrom s.1 d
    let r := vbufferIteratorInsert h s.2 (vbufferPosition s.2 0 (some p)) buffer
    ((r.heap, r.buffer), r.sub.map fun _ => [])
  | append d =>
    let (h, buffer) := vbufferCreateFrom s.1 d
    ((h, (vbufferAppend s.2 buffer).1), some [])
  | extract a n =>
    let r := vbufferExtract s.1 s.2 (vbufferSubCreate s.2 a (some n))
    ((r.1, r.2.1), r.2.2.map (Vbuffer.content r.1))
  | erase a n =>
    let r := vbufferErase s.1 s.2 (vbufferSubCreate s.2 a (some n))
    ((r.1, r.2.1), if r.2.2 then some [] else none)
  | replace a n d =>
    let (h, buffer) := vbufferCreateFrom s.1 d
    let r := vbufferReplace h s.2 (vbufferSubCreate s.2 a (some n)) buffer
    ((r.1, r.2.1), r.2.2.map fun _ => [])

/-- The edit of a byte list. -/
def Edit.spec (c : List UInt8) : Edit → List UInt8 × Option (List UInt8)
  | insert p d => (c.take p ++ d ++ c.drop p, some [])
  | append d => (c ++ d, some [])
  | extract a n => (c.take a ++ c.drop (a + n), some ((c.take (a + n)).drop a))
  | erase a n => (c.take a ++ c.drop (a + n), some [])
  | replace a n d => (c.take a ++ d ++ c.drop (a + n), some [])

/-- The abstraction relation: a writable buffer and its content. -/
structure Represents (s : Heap × Vbuffer) (c : List UInt8) : Prop where
  clean : s.1.Clean
  wf : s.2.WF s.1
  writable : s.2.Writable
  content : s.2.content s.1 = c

theorem Heap.Clean.mono (hh : h.Clean) (hmem : h'.mem = h.mem) (hnext : h.next ≤ h'.next) : h'.Clean := by
  intro a ha
  rw [hmem]
  exact hh a (hnext.trans ha)

variable {α : Type*}

theorem take_min_length (c : List α) (p : ℕ) : c.take (min p c.length) = c.take p := by
  rw [take_eq_take_iff]
  omega

theorem drop_min_length (c : List α) (p : ℕ) : c.drop (min p c.length) = c.drop p := by
  rcases Nat.le_total p c.length with hp | hp
  · rw [Nat.min_eq_left hp]
  · rw [Nat.min_eq_right hp, drop_length, drop_eq_nil_of_le hp]

/-- What an edit keeps of the heap and of the buffer. -/
structure Kept (h h' : Heap) (b' : Vbuffer) : Prop where
  mem : h'.mem = h.mem
  next : h.next ≤ h'.next
  wf : b'.WF h'
  writable : b'.Writable

theorem Vbuffer.WF.insert_new (hk : k.toVbuffer.WF h') (hmem : h'.mem = h.mem)
    (hnext : h.next ≤ h'.next) (hnews : ∀ i ∈ idsOf k.toVbuffer.all, i ∈ idsOf b.all ∨ h.next ≤ i)
    (hd : d.WF h) (ha : b.Apart d) : (k.insert d.body).WF h' := by
  refine Vbuffer.WF.insert hk (hd.mono hmem hnext) ?_
  intro i hi hki
  rcases hnews i hki with hb | hge
  · exact ha i hi hb
  · obtain ⟨c, hc, rfl⟩ := (mem_idsOf _).1 hi
    have := hd.fresh c hc
    omega

theorem kept_insert (hk : Kept h h' k.toVbuffer)
    (hnews : ∀ i ∈ idsOf k.toVbuffer.all, i ∈ idsOf b.all ∨ h.next ≤ i) (hd : d.WF h)
    (hdw : d.Writable) (ha : b.Apart d) : Kept h h' (k.insert d.body) := by
  refine ⟨hk.mem, hk.next, hk.wf.insert_new hk.mem hk.next hnews hd ha, ?_⟩
  intro c hc
  simp only [Cut.insert, Vbuffer.all_mk, mem_append] at hc
  have hkw := hk.writable c
  simp only [Cut.toVbuffer, Vbuffer.all_mk, mem_append] at hkw
  rcases hc with ((hc | hc) | hc) | hc
  · exact hkw (by tauto)
  · exact hdw c (by simp [Vbuffer.all, hc])
  · exact hkw (by tauto)
  · exact hkw (by tauto)

theorem insert_kept (hb : b.WF h) (hw : b.Writable) (hr : b.InRange pos)
    (hd : d.WF h) (hdw : d.Writable) (ha : b.Apart d) :
    Kept h (vbufferIteratorInsert h b pos d).heap (vbufferIteratorInsert h b pos d).buffer := by
  obtain ⟨h', k, hsplit, hat⟩ := split_spec hb hr fun _ : true = true => hw
  unfold vbufferIteratorInsert
  rw [if_pos hr.check]
  by_cases hd' : vbufferIsempty d = true
  · rw [if_pos hd']
    exact ⟨rfl, le_refl _, hb, hw⟩
  · rw [if_neg hd', hsplit]
    exact kept_insert ⟨hat.mem, hat.next, hat.wf, hat.writable hw⟩ hat.news hd hdw ha

theorem kept_insert_marked (hk : Kept h h' k.toVbuffer)
    (hnews : ∀ i ∈ idsOf k.toVbuffer.all, i ∈ idsOf b.all ∨ h.next ≤ i) (hd : d.WF h)
    (hdw : d.Writable) (ha : b.Apart d) : Kept h h' (k.markModified.insert d.body) := by
  refine kept_insert ⟨hk.mem, hk.next, Cut.mapChunk_wf remarks_markModified hk.wf,
    Cut.mapChunk_writable remarks_markModified hk.writable⟩ ?_ hd hdw ha
  intro i hi
  rw [Cut.markModified, Cut.mapChunk_ids remarks_markModified] at hi
  exact hnews i hi

theorem append_eq (b d : Vbuffer) : ∃ k : Cut, k.toVbuffer = b ∧
    (vbufferAppend b d).1 = k.markModified.insert d.body :=
  ⟨⟨b.body, [], b.last⟩, by simp [Cut.toVbuffer],
    by simp [vbufferAppend, Cut.insert, Cut.markModified, Cut.mapChunk]⟩

theorem append_kept (hb : b.WF h) (hw : b.Writable) (hd : d.WF h) (hdw : d.Writable)
    (ha : b.Apart d) : Kept h h (vbufferAppend b d).1 := by
  obtain ⟨k, rfl, heq⟩ := append_eq b d
  rw [heq]
  exact kept_insert_marked ⟨rfl, le_rfl, hb, hw⟩ (fun i hi => .inl hi) hd hdw ha

theorem replace_kept (hb : b.WF h) (hw : b.Writable) (hc : b.Covers data lo hi) (hd : d.WF h)
    (hdw : d.Writable) (ha : b.Apart d) :
    Kept h (vbufferReplace h b data d).1 (vbufferReplace h b data d).2.1 := by
  obtain ⟨h', ext, k, heq, hr⟩ := extract_removed true hb (fun _ => hw) hc
  unfold vbufferReplace
  rw [heq]
  exact kept_insert_marked ⟨hr.mem, hr.next, hr.wf, hr.writable hw⟩ hr.news hd hdw ha

variable {s : Heap × Vbuffer} {c : List UInt8}

/-- One edit of a buffer is the same edit of its content. -/
theorem edit_simulates (e : Edit) (hR : Represents s c) :
    Represents (e.apply s).1 (e.spec c).1 ∧ (e.apply s).2 = (e.spec c).2 := by
  obtain ⟨h, b⟩ := s
  obtain ⟨hh, hb, hw, rfl⟩ := hR
  simp only at hh hb hw
  have hlen := hb.length_content
  have hapart : ∀ {str h' d}, Created h str h' d → b.Apart d := by
    intro str h' d hcr i hi hbi
    obtain ⟨x, hx, rfl⟩ := (mem_idsOf _).1 hbi
    have h1 := hb.fresh x hx
    have h2 := (hcr.ids _ hi).1
    omega
  have hrep : ∀ {h₁ h₂ : Heap} {b' : Vbuffer} {c : List UInt8}, h₁.Clean → Kept h₁ h₂ b' →
      b'.content h₂ = c → Represents (h₂, b') c :=
    fun hcl hk hcont => ⟨hcl.mono hk.mem hk.next, hk.wf, hk.writable, hcont⟩
  cases e with
  | insert p d =>
    have hcr := createFrom_spec d hh
    obtain ⟨hb', hcont⟩ := hcr.others b hb
    obtain ⟨hin, hofs⟩ := position_spec 0 p hb'
    obtain ⟨hsome, hins, -⟩ := insert_content (vbufferCreateFrom h d).2 hb' hw hin
    obtain ⟨sub, hsub⟩ := Option.isSome_iff_exists.1 hsome
    rw [hofs, ← hlen, hcont, take_min_length, drop_min_length, hcr.content] at hins
    refine ⟨hrep hcr.clean (insert_kept hb' hw hin hcr.wf hcr.writable (hapart hcr)) hins, ?_⟩
    show (vbufferIteratorInsert (vbufferCreateFrom h d).1 b (vbufferPosition b 0 (some p))
      (vbufferCreateFrom h d).2).sub.map _ = _
    rw [hsub]
    rfl
  | append d =>
    have hcr := createFrom_spec d hh
    obtain ⟨hb', hcont⟩ := hcr.others b hb
    have happ := append_content (vbufferCreateFrom h d).1 b (vbufferCreateFrom h d).2
    rw [hcont, hcr.content] at happ
    exact ⟨hrep hcr.clean (append_kept hb' hw hcr.wf hcr.writable (hapart hcr)) happ, rfl⟩
  | extract a n =>
    obtain ⟨h', ext, k, heq, hr⟩ := extract_removed true hb (fun _ => hw) (subCreate_covers a n hb)
    have hcont := hr.content
    have hext : ext.content h' = bytesOf h.mem ext.body := by
      rw [← hr.mem]
      rfl
    rw [hr.extContent] at hext
    rw [← hlen, take_min_length, drop_min_length] at hcont
    have hdrop : ((b.content h).take (a + n)).drop (min a (b.content h).length) =
        ((b.content h).take (a + n)).drop a := by
      rw [← drop_min_length _ a, ← drop_min_length _ (min a (b.content h).length)]
      congr 1
      simp only [length_take]
      omega
    rw [← hlen, take_min_length, hdrop] at hext
    unfold Edit.apply vbufferExtract
    simp only [heq]
    exact ⟨hrep hh ⟨hr.mem, hr.next, hr.wf, hr.writable hw⟩ hcont, by simp [Edit.spec, hext]⟩
  | erase a n =>
    obtain ⟨h', ext, k, heq, hr⟩ := extract_removed true hb (fun _ => hw) (subCreate_covers a n hb)
    have hcont := hr.content
    rw [← hlen, take_min_length, drop_min_length] at hcont
    unfold Edit.apply vbufferErase
    simp only [heq]
    exact ⟨hrep hh ⟨hr.mem, hr.next, hr.wf, hr.writable hw⟩ hcont, rfl⟩
  | replace a n d =>
    have hcr := createFrom_spec d hh
    obtain ⟨hb', hcont⟩ := hcr.others b hb
    have hcov := subCreate_covers a n hb
    obtain ⟨h', src, new, heq, hsrc⟩ := replace_content (vbufferCreateFrom h d).2 hb' hw hcov
    have hkept := replace_kept hb' hw hcov hcr.wf hcr.writable (hapart hcr)
    rw [← hlen, hcont, take_min_length, drop_min_length, hcr.content] at hsrc
    unfold Edit.apply
    simp only [heq] at hkept ⊢
    exact ⟨hrep hcr.clean hkept hsrc, rfl⟩

/-- **Runs of edits.** Any sequence of edits of a writable buffer succeeds, takes out the bytes and
leaves the content that the same edits of its content would. -/
theorem edits_simulate (es : List Edit) (hR : Represents s c) :
    Represents (Machine.run Edit.apply s es).1 (Machine.run Edit.spec c es).1 ∧
      (Machine.run Edit.apply s es).2 = (Machine.run Edit.spec c es).2 :=
  Machine.run_simulation (fun _ _ e hR _ => edit_simulates e hR) hR (Machine.guarded_true s es)

theorem edits_simulate_hello :
    (Machine.run Edit.apply (helloHeap, helloBuffer) [.insert 1 [7], .extract 0 2]).2 =
      [some [], some [104, 7]] := by
  have hclean : helloHeap.Clean := fun a (_ : 9 ≤ a) =>
    (if_neg (by omega)).trans (if_neg (by omega))
  exact (edits_simulate _ ⟨hclean, helloBuffer_wf, helloBuffer_writable, rfl⟩).2

end Haka
