import Haka.Ipv4.Fragment
import Haka.Lib.Cover
import Haka.Lib.Reassembly
import Haka.Stream.Invariant

/-!
# Reassembly of IPv4 fragments

The fragments of a datagram are slices of its payload, delivered in any order. The pending list is
a staircase as long as two fragments that overlap stop at the same place or the later one is the
end of the payload. Then the search for holes, which remembers only the end of the previous
fragment, finds them all, and the rebuilt payload is the one that was sent.

Other overlaps break both loops. Behind a fragment contained in the one before it the search sees
a hole that is not there. Behind a fragment that was cut at its front the offset is too large, as
it grows by the length from before the cut.
-/

namespace Haka

open List Reassembly Machine Cover

/-! ## Fragments -/

def fragStop (ip : Ipv4) : ℕ := ipv4GetFragOffset ip + vbufferSize ip.packetPayload

/-- A fragment of the payload `P`: a slice of it in a buffer without push node, whose
more-fragments flag is clear exactly if it ends `P`. -/
structure Fragment (P : List UInt8) (h : Heap) (ip : Ipv4) : Prop where
  reassembled : ip.dontReassemble = false
  len : ipv4GetLen ip = ipv4GetHdrLen ip + vbufferSize ip.packetPayload
  inside : fragStop ip ≤ P.length
  last : ipv4GetFlagsMf ip = false ↔ fragStop ip = P.length
  bytes : ip.packetPayload.content h = slice P (ipv4GetFragOffset ip) (fragStop ip)
  wf : ip.packetPayload.WF h
  plain : ∀ c ∈ ip.packetPayload.body, Plain 0 false c

/-- The last fragment of `P`, if its front can be erased. -/
def CanCut (P : List UInt8) (ip : Ipv4) : Prop := fragStop ip = P.length ∧ ip.packetPayload.Writable

/-- The pending fragments of the payload `P`. -/
structure Pending (P : List UInt8) (h : Heap) (list : List Ipv4) : Prop where
  frags : ∀ f ∈ list, Fragment P h f
  order : list.Pairwise (Follows P.length ipv4GetFragOffset fragStop (CanCut P))
  apart : list.Pairwise fun a b => a.packetPayload.Apart b.packetPayload

section Pending

variable {P : List UInt8} {h h' : Heap} {ip : Ipv4} {list : List Ipv4}

theorem Fragment.keeps (hf : Fragment P h ip) (hk : h.Keeps h' ip.packetPayload.all) :
    Fragment P h' ip := by
  refine { hf with bytes := ?_, wf := hf.wf.keeps hk }
  rw [← hf.bytes]
  exact bytesOf_keeps hk fun x hx => mem_append_left _ hx

theorem Pending.keeps (hp : Pending P h list)
    (hk : ∀ f ∈ list, h.Keeps h' f.packetPayload.all) : Pending P h' list :=
  { hp with frags := fun f hf => (hp.frags f hf).keeps (hk f hf) }

theorem Pending.sorted (hp : Pending P h list) :
    list.Pairwise fun a b => ipv4GetFragOffset a ≤ ipv4GetFragOffset b :=
  hp.order.imp fun hab => hab.sorted

theorem Fragment.lt_of_mf (hf : Fragment P h ip) (hm : ipv4GetFlagsMf ip = true) :
    fragStop ip < P.length :=
  lt_of_le_of_ne hf.inside fun hend => by simp [hf.last.2 hend] at hm

theorem Pending.mf (hp : Pending P h list) : list.Pairwise fun a _ => ipv4GetFlagsMf a = true := by
  refine hp.order.imp_of_mem fun ha _ hab => ?_
  by_contra hmf
  have := (hp.frags _ ha).last.1 (by simpa using hmf)
  have := hab.isOpen
  omega

/-! ## The search for holes -/

theorem checkLoop_iff {last : ℕ}
    (hlen : ∀ f ∈ list, ipv4GetLen f = ipv4GetHdrLen f + vbufferSize f.packetPayload)
    (hmf : list.Pairwise fun a _ => ipv4GetFlagsMf a = true) :
    checkLoop last list = some true ↔
      NoGap ipv4GetFragOffset fragStop last list ∧ ∃ f ∈ list, ipv4GetFlagsMf f = false := by
  induction list generalizing last with
  | nil => simp [checkLoop]
  | cons cur rest ih =>
    obtain ⟨hcur, hmf⟩ := pairwise_cons.1 hmf
    have hstop : ipv4GetFragOffset cur + (ipv4GetLen cur - ipv4GetHdrLen cur) = fragStop cur := by
      rw [hlen cur (by simp), Nat.add_sub_cancel_left]
      rfl
    rw [checkLoop, hstop]
    by_cases hgap : ipv4GetFragOffset cur > last
    · rw [if_pos hgap]
      simp only [Option.some.injEq, Bool.false_eq_true, false_iff, NoGap]
      rintro ⟨⟨hle, -⟩, -⟩
      omega
    rw [if_neg hgap]
    by_cases hcm : ipv4GetFlagsMf cur = true
    · simp only [hcm, Bool.not_true, Bool.false_eq_true, if_false]
      rw [ih (fun f hf => hlen f (by simp [hf])) hmf]
      simp [NoGap, hcm, not_lt.1 hgap]
    · -- nothing stands behind a fragment without more-fragments flag
      obtain rfl : rest = [] := eq_nil_iff_forall_not_mem.2 fun f hf => hcm (hcur f hf)
      simp [NoGap, hcm, not_lt.1 hgap]

theorem checkLoop_none {last : ℕ} (hn : checkLoop last list = none) :
    ∀ f ∈ list, ipv4GetFlagsMf f = true := by
  induction list generalizing last with
  | nil => simp
  | cons cur rest ih =>
    rw [checkLoop] at hn
    by_cases hgap : ipv4GetFragOffset cur > last
    · simp [if_pos hgap] at hn
    rw [if_neg hgap] at hn
    by_cases hcm : ipv4GetFlagsMf cur = true
    · simp only [hcm, Bool.not_true, Bool.false_eq_true, if_false] at hn
      intro f hf
      rcases mem_cons.1 hf with rfl | hf
      · exact hcm
      · exact ih hn f hf
    · simp [hcm] at hn

theorem check_iff_loop (hne : list ≠ []) :
    ipv4FragCheckMissingFragments list = true ↔ checkLoop 0 list = some true := by
  unfold ipv4FragCheckMissingFragments
  cases hc : checkLoop 0 list with
  | some r => simp
  | none =>
    have hlast := checkLoop_none hc _ (getLast_mem hne)
    simp [getLast?_eq_some_getLast hne, hlast]

/-- **Holes.** A pending list is complete if it has no gap and ends the payload. -/
theorem Pending.check_iff (hp : Pending P h list) (hne : list ≠ []) :
    ipv4FragCheckMissingFragments list = true ↔
      NoGap ipv4GetFragOffset fragStop 0 list ∧ ∃ f ∈ list, ipv4GetFlagsMf f = false := by
  rw [check_iff_loop hne, checkLoop_iff (fun f hf => (hp.frags f hf).len) hp.mf]

/-! ## Insertion -/

/-- What `ipv4_frag_insert` does: it drops the packet behind one that ends the payload, or puts it
before the first one that does not start before it. -/
theorem fragInsert_cases (ip : Ipv4)
    (hs : list.Pairwise fun a b => ipv4GetFragOffset a ≤ ipv4GetFragOffset b)
    (hmf : list.Pairwise fun a _ => ipv4GetFlagsMf a = true) (hne : list ≠ []) :
    (∃ last ∈ list, ipv4GetFlagsMf last = false ∧
      ipv4GetFragOffset last < ipv4GetFragOffset ip ∧ ipv4FragInsert list ip = (list, false)) ∨
    ∃ before after new, list = before ++ after ∧
      (∀ a ∈ before, ipv4GetFragOffset a < ipv4GetFragOffset ip) ∧
      (∀ b ∈ after, ipv4GetFragOffset ip ≤ ipv4GetFragOffset b) ∧
      (∀ a ∈ before, ipv4GetFlagsMf a = true) ∧
      new = before ++ ip :: (if !ipv4GetFlagsMf ip then [] else after) ∧
      ipv4FragInsert list ip = (new, ipv4FragCheckMissingFragments new) := by
  have hlist : list.takeWhile (fun cur => decide (ipv4GetFragOffset cur < ipv4GetFragOffset ip)) ++
      list.dropWhile (fun cur => decide (ipv4GetFragOffset cur < ipv4GetFragOffset ip)) = list :=
    takeWhile_append_dropWhile
  have hlt : ∀ a ∈ list.takeWhile (fun cur => decide (ipv4GetFragOffset cur < ipv4GetFragOffset ip)),
      ipv4GetFragOffset a < ipv4GetFragOffset ip := fun a ha => by
    simpa using mem_takeWhile_imp ha
  have hge : ∀ b ∈ list.dropWhile (fun cur => decide (ipv4GetFragOffset cur < ipv4GetFragOffset ip)),
      ipv4GetFragOffset ip ≤ ipv4GetFragOffset b := fun b hb => start_le_of_mem_dropWhile hs hb
  unfold ipv4FragInsert
  rw [getLast?_eq_some_getLast hne]
  generalize list.takeWhile (fun cur => decide (ipv4GetFragOffset cur < ipv4GetFragOffset ip)) =
    before at hlist hlt ⊢
  generalize list.dropWhile (fun cur => decide (ipv4GetFragOffset cur < ipv4GetFragOffset ip)) =
    after at hlist hge ⊢
  cases after with
  | nil =>
    obtain rfl : before = list := by simpa using hlist
    by_cases hm : ipv4GetFlagsMf (before.getLast hne) = true
    · right
      refine ⟨before, [], before ++ [ip], by simp, hlt, by simp, fun a ha => ?_, by simp,
        by simp [hm]⟩
      rw [← dropLast_append_getLast hne] at ha hmf
      rcases mem_append.1 ha with ha | ha
      · exact (pairwise_append.1 hmf).2.2 a ha _ (mem_singleton_self _)
      · rw [mem_singleton.1 ha]
        exact hm
    · left
      exact ⟨before.getLast hne, getLast_mem hne, by simpa using hm,
        hlt _ (getLast_mem hne), by simp [hm]⟩
  | cons b rest =>
    rw [← hlist] at hmf
    exact .inr ⟨before, b :: rest, _, hlist.symm, hlt, hge,
      fun a ha => (pairwise_append.1 hmf).2.2 a ha b (by simp), rfl, rfl⟩

theorem Fragment.covered_by {f g : Ipv4} {x : ℕ} (hf : Fragment P h f) (hg : fragStop g = P.length)
    (hle : ipv4GetFragOffset g ≤ ipv4GetFragOffset f) (hx : ipv4GetFragOffset f ≤ x ∧ x < fragStop f) :
    ipv4GetFragOffset g ≤ x ∧ x < fragStop g := by
  have := hf.inside
  omega

theorem Pending.complete (hp : Pending P h list) (hne : list ≠ [])
    (hcov : ∀ x < P.length, Covered ipv4GetFragOffset fragStop list x) :
    ipv4FragCheckMissingFragments list = true := by
  rw [hp.check_iff hne]
  constructor
  · exact noGap_of_covered hp.order (fun f hf => ⟨Nat.le_add_right _ _, (hp.frags f hf).inside⟩)
      (fun f _ hc => hc.1) (fun f _ => Nat.zero_le _) fun x _ hx => hcov x hx
  · -- the fragment that holds the last position ends the payload
    rcases Nat.eq_zero_or_pos P.length with h0 | h0
    · obtain ⟨f, hf⟩ := exists_mem_of_ne_nil list hne
      have hin := (hp.frags f hf).inside
      exact ⟨f, hf, (hp.frags f hf).last.2 (by omega)⟩
    · obtain ⟨f, hf, -, hlt⟩ := hcov (P.length - 1) (by omega)
      have hin := (hp.frags f hf).inside
      exact ⟨f, hf, (hp.frags f hf).last.2 (by omega)⟩

/-- What an insertion leaves: pending fragments that cover what was covered and the new one,
reported as complete exactly if they have no gap. -/
structure FragInserted (P : List UInt8) (h : Heap) (list : List Ipv4) (ip : Ipv4)
    (r : List Ipv4 × Bool) : Prop where
  pending : Pending P h r.1
  ne : r.1 ≠ []
  covers : ∀ x, Covered ipv4GetFragOffset fragStop list x ∨
    (ipv4GetFragOffset ip ≤ x ∧ x < fragStop ip) → Covered ipv4GetFragOffset fragStop r.1 x
  complete : r.2 = true → NoGap ipv4GetFragOffset fragStop 0 r.1 ∧
    ∃ f ∈ r.1, ipv4GetFlagsMf f = false
  hole : r.2 = false → (∃ x < P.length, ¬Covered ipv4GetFragOffset fragStop list x) →
    ∃ x < P.length, ¬Covered ipv4GetFragOffset fragStop r.1 x

/-- **Insertion.** A fragment that is compatible with the pending ones keeps the staircase. -/
theorem Pending.insert (hp : Pending P h list) (hne : list ≠ []) (hf : Fragment P h ip)
    (hc : ∀ g ∈ list, Compatible P.length ipv4GetFragOffset fragStop (CanCut P) g ip)
    (ha : ∀ g ∈ list, g.packetPayload.Apart ip.packetPayload) :
    FragInserted P h list ip (ipv4FragInsert list ip) := by
  rcases fragInsert_cases ip hp.sorted hp.mf hne with ⟨last, hlast, hmf, hlt, heq⟩ |
    ⟨before, after, new, rfl, hlt, hge, hmf, hnew, heq⟩
  · rw [heq]
    refine ⟨hp, hne, fun x hx => ?_, by simp, fun _ hhole => hhole⟩
    rcases hx with hx | hx
    · exact hx
    · exact ⟨last, hlast, hf.covered_by ((hp.frags last hlast).last.1 hmf) hlt.le hx⟩
  rw [heq]
  set kept := if !ipv4GetFlagsMf ip then [] else after with hkept
  have hsub : kept.Sublist after := by
    rw [hkept]
    split_ifs
    · exact nil_sublist _
    · exact List.Sublist.refl _
  have hmem : ∀ b ∈ kept, b ∈ after ∧ ipv4GetFlagsMf ip = true := by
    intro b hb
    refine ⟨hsub.subset hb, ?_⟩
    by_contra hm
    simp [hkept, hm] at hb
  have hpend : Pending P h new := by
    subst hnew
    refine ⟨fun f hfm => ?_, ?_, ?_⟩
    · simp only [mem_append, mem_cons] at hfm
      rcases hfm with hfm | rfl | hfm
      · exact hp.frags f (by simp [hfm])
      · exact hf
      · exact hp.frags f (by simp [(hmem f hfm).1])
    · refine pairwise_insert (hp.order.sublist (hsub.append_left before)) (fun a hab => ?_)
        fun b hb => ?_
      · have hfa := hp.frags a (by simp [hab])
        exact ⟨(hlt a hab).le, hfa.lt_of_mf (hmf a hab), (hc a (by simp [hab])).1 (hlt a hab).le⟩
      · obtain ⟨hba, hm⟩ := hmem b hb
        exact ⟨hge b hba, hf.lt_of_mf hm, (hc b (by simp [hba])).2 (hge b hba)⟩
    · exact pairwise_insert (hp.apart.sublist (hsub.append_left before))
        (fun a hab => ha a (by simp [hab])) fun b hb => (ha b (by simp [(hmem b hb).1])).symm
  have hnew' : new ≠ [] := by simp [hnew]
  have hip : ip ∈ new := by simp [hnew]
  refine ⟨hpend, hnew', fun x hx => ?_, (hpend.check_iff hnew').1, fun hfalse _ => ?_⟩
  · rcases hx with ⟨g, hg, hx⟩ | hx
    · by_cases hgn : g ∈ new
      · exact ⟨g, hgn, hx⟩
      -- a fragment that was dropped stands behind a new one that ends the payload
      have hga : g ∈ after := by
        rcases mem_append.1 hg with hg | hg
        · exact absurd (by simp [hnew, hg]) hgn
        · exact hg
      have hm : ipv4GetFlagsMf ip = false := by
        by_contra hm
        exact hgn (by simp [hnew, hkept, hm, hga])
      exact ⟨ip, hip, (hp.frags g hg).covered_by (hf.last.1 hm) (hge g hga) hx⟩
    · exact ⟨ip, hip, hx⟩
  · by_contra hall
    push Not at hall
    rw [hpend.complete hnew' hall] at hfalse
    exact absurd hfalse (by simp)

end Pending

/-! ## The rebuilt payload -/

section Rebuild

variable {P : List UInt8} {h h' : Heap} {s : VbufferStream ℕ} {ip : Ipv4} {list : List Ipv4}
  {offset : ℕ}

/-- The stream holds the first `offset` bytes of the payload. -/
structure Rebuilt (P : List UInt8) (h : Heap) (s : VbufferStream ℕ) (offset : ℕ) : Prop where
  eof : s.data.last.flags.eof = false
  reads : s.readChunks = []
  held : ∃ pend, Fifo false h s pend ∧ (pend.map Prod.snd).flatten = P.take offset

theorem Rebuilt.content (hs : Rebuilt P h s P.length) :
    (vbufferStreamFinish s).data.content h = P := by
  obtain ⟨pend, hf, hpend⟩ := hs.held
  rw [(finish_fifo hf).content hs.reads, hpend, take_length]

theorem streamPush_readChunks (h : Heap) (s : VbufferStream ℕ) (b : Vbuffer) (u : Option ℕ) :
    (vbufferStreamPush h s b u).2.1.readChunks = s.readChunks := by
  unfold vbufferStreamPush
  split_ifs <;> rfl

theorem Rebuilt.push {b : Vbuffer} {stop : ℕ} (hs : Rebuilt P h s offset)
    (hb : Pushable false h s b) (hle : offset ≤ stop) (hbytes : b.content h = slice P offset stop)
    (u : Option ℕ) :
    ∃ h' s' cur, vbufferStreamPush h s b u = (h', s', { b with body := [] }, cur) ∧
      PushFrame h s b h' s' ∧ Rebuilt P h' s' stop := by
  obtain ⟨pend, hf, hpend⟩ := hs.held
  obtain ⟨h', s', cur, sc, heq, -, hfr, hf'⟩ := push_fifo hf hb hs.eof u
  have hreads := streamPush_readChunks h s b u
  rw [heq] at hreads
  refine ⟨h', s', some cur, heq, hfr, hfr.eof, hreads.trans hs.reads, _, hf', ?_⟩
  have hslice : P.take offset ++ slice P offset stop = P.take stop :=
    slice_append (Nat.zero_le _) hle
  simp [hpend, hbytes, hslice]

theorem plain_stream {sid sid' : ℕ} {c : Chunk} (hp : Plain sid false c) : Plain sid' false c := by
  refine ⟨?_, hp.mark⟩
  have hd := hp.data
  cases hc : c.data <;> simp_all [Data.isPlain]

theorem size_body {b : Vbuffer} (hb : b.WF h) : vbufferSize b = totalSize b.body := by
  simp [vbufferSize, Vbuffer.all, hb.last_size]

/-- A fragment that starts before `offset`, with its front erased, is pushed as the rest of it. -/
theorem Rebuilt.pushCut (hs : Rebuilt P h s offset) (hf : Fragment P h ip)
    (hb : Pushable false h s ip.packetPayload) (hw : ip.packetPayload.Writable)
    (hlt : ipv4GetFragOffset ip < offset) (hle : offset ≤ fragStop ip) :
    ∃ h1 b h2 s' cur, vbufferErase h ip.packetPayload
        (vbufferSubCreate ip.packetPayload 0 (some (offset - ipv4GetFragOffset ip))) = (h1, b, true) ∧
      vbufferStreamPush h1 s b (some ip.address) = (h2, s', { b with body := [] }, cur) ∧
      Rebuilt P h2 s' (fragStop ip) := by
  obtain ⟨h1, ext, k, heq, hr⟩ := extract_removed true hf.wf (fun _ => hw)
    (subCreate_covers 0 (offset - ipv4GetFragOffset ip) hf.wf)
  have hplain := extract_forall (plain_keepsKind s.id false).parts hb.plain h
    (vbufferSubCreate ip.packetPayload 0 (some (offset - ipv4GetFragOffset ip))) true false
    (fun h0 => absurd h0 (by simp))
  rw [heq] at hplain
  have hsize := size_body hf.wf
  have hstop : fragStop ip = ipv4GetFragOffset ip + vbufferSize ip.packetPayload := rfl
  have hmin : min (0 + (offset - ipv4GetFragOffset ip)) (totalSize ip.packetPayload.body) =
      offset - ipv4GetFragOffset ip := by omega
  have hcontent : k.toVbuffer.content h1 = slice P offset (fragStop ip) := by
    rw [hr.content, hmin, hf.bytes]
    simp only [Nat.zero_min, take_zero, nil_append]
    unfold slice
    rw [drop_drop, Nat.add_sub_cancel' hlt.le]
  obtain ⟨pend, hfifo, hpend⟩ := hs.held
  have hs1 : Rebuilt P h1 s offset :=
    ⟨hs.eof, hs.reads, pend, hfifo.keeps ⟨hr.next, fun c _ => by rw [hr.mem]⟩, hpend⟩
  have hb1 : Pushable false h1 s k.toVbuffer := by
    refine ⟨hr.wf, fun i hi hm => ?_, hplain⟩
    rcases hr.news i hi with hi | hi
    · exact hb.apart i hi hm
    · obtain ⟨c, hc, rfl⟩ := (mem_idsOf _).1 hm
      have := hfifo.wf.fresh c hc
      omega
  obtain ⟨h2, s', cur, hpush, -, hs2⟩ := hs1.push hb1 hle hcontent (some ip.address)
  exact ⟨h1, k.toVbuffer, h2, s', cur, by simp [vbufferErase, heq], hpush, hs2⟩

/-- **Rebuild.** The loop over a pending list without gap rebuilds the payload. -/
theorem rebuild_spec (hs : Rebuilt P h s offset) (hle : offset ≤ P.length) (hp : Pending P h list)
    (hb : ∀ f ∈ list, Pushable false h s f.packetPayload)
    (hgap : NoGap ipv4GetFragOffset fragStop offset list)
    (hmeets : ∀ f ∈ list, offset ≤ ipv4GetFragOffset f ∨ offset = fragStop f ∨ CanCut P f)
    (hend : (list = [] ∧ offset = P.length) ∨ ∃ f ∈ list, fragStop f = P.length) :
    Rebuilt P (rebuildLoop h s offset list).1 (rebuildLoop h s offset list).2 P.length := by
  induction list generalizing h s offset with
  | nil =>
    rcases hend with ⟨-, rfl⟩ | ⟨f, hf, -⟩
    · exact hs
    · simp at hf
  | cons a l ih =>
    obtain ⟨hstart, hgap⟩ := hgap
    obtain ⟨hfollow, horder⟩ := pairwise_cons.1 hp.order
    obtain ⟨haparta, hapart⟩ := pairwise_cons.1 hp.apart
    have hfa := hp.frags a (by simp)
    have hstop : fragStop a = ipv4GetFragOffset a + vbufferSize a.packetPayload := rfl
    have hpl : Pending P h l := ⟨fun f hf => hp.frags f (by simp [hf]), horder, hapart⟩
    -- behind `a` the loop is at the stop of `a`, or at the end of the list
    have hnil : fragStop a = P.length → l = [] := fun hlast =>
      eq_nil_iff_forall_not_mem.2 fun f hf => by
        have := (hfollow f hf).isOpen
        omega
    have hend' : (l = [] ∧ fragStop a = P.length) ∨ ∃ f ∈ l, fragStop f = P.length := by
      rcases hend with ⟨hn, -⟩ | ⟨f, hf, hlast⟩
      · simp at hn
      · rcases mem_cons.1 hf with rfl | hf
        · exact .inl ⟨hnil hlast, hlast⟩
        · exact .inr ⟨f, hf, hlast⟩
    have hmeets' : ∀ f ∈ l, fragStop a ≤ ipv4GetFragOffset f ∨ fragStop a = fragStop f ∨
        CanCut P f := fun f hf =>
      (hfollow f hf).meets.resolve_left (hfollow f hf).isOpen.ne
    rw [rebuildLoop]
    by_cases heq : ipv4GetFragOffset a = offset
    · obtain ⟨h', s', cur, hpush, hfr, hs'⟩ := hs.push (hb a (by simp))
        (show offset ≤ fragStop a by omega)
        (by rw [hfa.bytes, heq]) (some a.address)
      simp only [heq, ne_eq, not_true_eq_false, if_false, hpush]
      rw [← heq, ← hstop]
      refine ih hs' hfa.inside (hpl.keeps fun f _ => ⟨hfr.next, fun c _ => by rw [hfr.mem]⟩)
        (fun f hf => (hb f (by simp [hf])).push hfr (haparta f hf)) hgap hmeets' hend'
    simp only [ne_eq, heq, not_false_eq_true, if_true]
    by_cases hdrop : fragStop a ≤ offset
    · have hoff : fragStop a = offset := by
        rcases hmeets a (by simp) with h1 | h1 | h1
        · omega
        · exact h1.symm
        · have := h1.1
          omega
      rw [if_pos (by rw [← hstop]; exact hdrop)]
      rw [hoff] at hgap hmeets' hend'
      exact ih hs hle hpl (fun f hf => hb f (by simp [hf])) hgap hmeets' hend'
    · obtain ⟨hlast, hw⟩ : CanCut P a := by
        rcases hmeets a (by simp) with h1 | h1 | h1
        · omega
        · omega
        · exact h1
      obtain ⟨h₁, b, h2, s', cur, herase, hpush, hs'⟩ :=
        hs.pushCut hfa (hb a (by simp)) hw (by omega) (by omega)
      rw [if_neg (by rw [← hstop]; exact hdrop), hnil hlast]
      simp only [herase, hpush, rebuildLoop]
      rw [← hlast]
      exact hs'

end Rebuild

/-! ## Deliveries -/

/-- One call of `ipv4_reassemble`, in the heap the caller has. What is seen of the datagram is its
payload. -/
def ipv4Step (σ : Heap × Ipv4FragTable) (i : Heap × Ipv4) :
    (Heap × Ipv4FragTable) × Option (List UInt8) :=
  let r := ipv4Reassemble i.1 σ.2 i.2
  ((r.1, r.2.1), r.2.2.map fun d => d.2.content r.1)

def pendingOf (σ : Heap × Ipv4FragTable) (key : Ipv4FragKey) : List Ipv4 := (σ.2 key).getD []

/-- The delivery of a fragment of the payload `P`, in a buffer of its own, while the heap still
holds the pending fragments. -/
structure Delivery (P : List UInt8) (key : Ipv4FragKey) (σ : Heap × Ipv4FragTable)
    (i : Heap × Ipv4) : Prop where
  ofKey : ipv4FragKey i.2 = key
  frag : Fragment P i.1 i.2
  apart : ∀ g ∈ pendingOf σ key, g.packetPayload.Apart i.2.packetPayload
  keeps : ∀ g ∈ pendingOf σ key, σ.1.Keeps i.1 g.packetPayload.all

/-- Of the delivered fragment and a pending one, the one that starts first ends `P`, or stops where
the other one starts or before, or where it stops, or the other one ends `P` and is writable. -/
def CompatibleDelivery (P : List UInt8) (key : Ipv4FragKey) (σ : Heap × Ipv4FragTable)
    (i : Heap × Ipv4) : Prop :=
  Delivery P key σ i ∧
    ∀ g ∈ pendingOf σ key, Compatible P.length ipv4GetFragOffset fragStop (CanCut P) g i.2

/-- The delivered fragments hold every position of `P`. -/
def CoversPayload (P : List UInt8) (is : List (Heap × Ipv4)) : Prop :=
  ∀ x < P.length, Covered ipv4GetFragOffset fragStop (is.map Prod.snd) x

/-- Between two calls the pending fragments do not cover the payload. -/
structure FragInv (P : List UInt8) (key : Ipv4FragKey) (σ : Heap × Ipv4FragTable) : Prop where
  pending : Pending P σ.1 (pendingOf σ key)
  hole : pendingOf σ key ≠ [] →
    ∃ x < P.length, ¬Covered ipv4GetFragOffset fragStop (pendingOf σ key) x
  entry : σ.2 key ≠ some []

section Decidable

variable (P : List UInt8) (h : Heap) (ip : Ipv4) (key : Ipv4FragKey) (σ : Heap × Ipv4FragTable)
  (i : Heap × Ipv4)

instance : Decidable (Fragment P h ip) :=
  decidable_of_iff (ip.dontReassemble = false ∧
      ipv4GetLen ip = ipv4GetHdrLen ip + vbufferSize ip.packetPayload ∧
      fragStop ip ≤ P.length ∧ (ipv4GetFlagsMf ip = false ↔ fragStop ip = P.length) ∧
      ip.packetPayload.content h = slice P (ipv4GetFragOffset ip) (fragStop ip) ∧
      ip.packetPayload.WF h ∧ ∀ c ∈ ip.packetPayload.body, Plain 0 false c)
    ⟨fun ⟨h1, h2, h3, h4, h5, h6, h7⟩ => ⟨h1, h2, h3, h4, h5, h6, h7⟩,
      fun hf => ⟨hf.reassembled, hf.len, hf.inside, hf.last, hf.bytes, hf.wf, hf.plain⟩⟩

instance : DecidablePred (CanCut P) := fun ip =>
  inferInstanceAs (Decidable (fragStop ip = P.length ∧
    ∀ c ∈ ip.packetPayload.all, c.flags.writable = true))

instance : Decidable (Delivery P key σ i) :=
  decidable_of_iff (ipv4FragKey i.2 = key ∧ Fragment P i.1 i.2 ∧
      (∀ g ∈ pendingOf σ key, g.packetPayload.Apart i.2.packetPayload) ∧
      ∀ g ∈ pendingOf σ key, σ.1.Keeps i.1 g.packetPayload.all)
    ⟨fun ⟨h1, h2, h3, h4⟩ => ⟨h1, h2, h3, h4⟩, fun hd => ⟨hd.ofKey, hd.frag, hd.apart, hd.keeps⟩⟩

instance : Decidable (CompatibleDelivery P key σ i) :=
  inferInstanceAs (Decidable (_ ∧ ∀ g ∈ pendingOf σ key, _))

instance (is : List (Heap × Ipv4)) : Decidable (CoversPayload P is) :=
  inferInstanceAs (Decidable (∀ x < P.length, _))

end Decidable

section Runs

variable {P : List UInt8} {key : Ipv4FragKey} {σ : Heap × Ipv4FragTable} {h : Heap} {ip : Ipv4}
  {list : List Ipv4}

theorem fragInv_empty {table : Ipv4FragTable} (ht : table key = none) : FragInv P key (h, table) := by
  have hp : pendingOf (h, table) key = [] := by simp [pendingOf, ht]
  exact ⟨by rw [hp]; exact ⟨by simp, List.Pairwise.nil, List.Pairwise.nil⟩, fun hn => absurd hp hn,
    by simp [ht]⟩

theorem pushable_init {b : Vbuffer} (hb : b.WF h) (hp : ∀ c ∈ b.body, Plain 0 false c) :
    Pushable false (vbufferStreamInit (υ := ℕ) h).1 (vbufferStreamInit (υ := ℕ) h).2 b := by
  have hkeep : h.Keeps (vbufferStreamInit (υ := ℕ) h).1 b.all :=
    ⟨show h.next ≤ h.next + 1 + 1 by omega, fun c _ => rfl⟩
  refine ⟨hb.keeps hkeep, fun i hi hm => ?_, fun c hc => plain_stream (hp c hc)⟩
  obtain ⟨c, hc, rfl⟩ := (mem_idsOf _).1 hi
  have hlt := hb.fresh c hc
  have heq : c.id = h.next + 1 := by
    simpa [vbufferStreamInit, vbufferCreateEmpty, _vbufferInit, Vbuffer.all, idsOf,
      vbufferChunkCreateEnd, endChunk, Chunk.setEof] using hm
  omega

theorem rebuilt_init (P : List UInt8) (h : Heap) :
    Rebuilt P (vbufferStreamInit (υ := ℕ) h).1 (vbufferStreamInit h).2 0 :=
  ⟨rfl, rfl, [], init_fifo h, by simp⟩

theorem rebuild_content (hp : Pending P h list)
    (hgap : NoGap ipv4GetFragOffset fragStop 0 list) (hlast : ∃ f ∈ list, ipv4GetFlagsMf f = false)
    {r : Heap × VbufferStream ℕ} (hr : r = vbufferStreamInit h) :
    (vbufferStreamFinish (rebuildLoop r.1 r.2 0 list).2).data.content (rebuildLoop r.1 r.2 0 list).1 =
      P := by
  subst hr
  have hkeep : ∀ f ∈ list, h.Keeps (vbufferStreamInit (υ := ℕ) h).1 f.packetPayload.all :=
    fun f _ => ⟨show h.next ≤ h.next + 1 + 1 by omega, fun c _ => rfl⟩
  refine (rebuild_spec (rebuilt_init P h) (Nat.zero_le _) (hp.keeps hkeep)
    (fun f hf => pushable_init (hp.frags f hf).wf (hp.frags f hf).plain) hgap
    (fun f _ => .inl (Nat.zero_le _)) ?_).content
  obtain ⟨f, hf, hmf⟩ := hlast
  exact .inr ⟨f, hf, (hp.frags f hf).last.1 hmf⟩

theorem Fragment.hole (hf : Fragment P h ip)
    (hn : ¬(ipv4GetFlagsMf ip = false ∧ ipv4GetFragOffset ip = 0)) :
    ∃ x < P.length, ¬Covered ipv4GetFragOffset fragStop [ip] x := by
  have hin := hf.inside
  have hstop : fragStop ip = ipv4GetFragOffset ip + vbufferSize ip.packetPayload := rfl
  by_cases h0 : ipv4GetFragOffset ip = 0
  · have hm : ipv4GetFlagsMf ip = true := by
      by_contra hm
      exact hn ⟨by simpa using hm, h0⟩
    exact ⟨fragStop ip, hf.lt_of_mf hm, by simp [Covered]⟩
  · exact ⟨0, by omega, by simp [Covered, h0]⟩

/-- **Step.** A delivery returns the payload, or adds the fragment to the pending ones. -/
theorem ipv4Step_spec {i : Heap × Ipv4} (hi : FragInv P key σ) (hd : CompatibleDelivery P key σ i) :
    FragInv P key (ipv4Step σ i).1 ∧
    ((ipv4Step σ i).2 = some P ∨
      (ipv4Step σ i).2 = none ∧ pendingOf (ipv4Step σ i).1 key ≠ [] ∧
      ∀ x, Covered ipv4GetFragOffset fragStop (pendingOf σ key) x ∨
          (ipv4GetFragOffset i.2 ≤ x ∧ x < fragStop i.2) →
        Covered ipv4GetFragOffset fragStop (pendingOf (ipv4Step σ i).1 key) x) := by
  obtain ⟨h0, table⟩ := σ
  obtain ⟨h, ip⟩ := i
  obtain ⟨⟨rfl, hf, ha, hk⟩, hc⟩ := hd
  obtain ⟨hp, hhole, hentry⟩ := hi
  dsimp only at hf ha hk hc hp hhole hentry ⊢
  replace hp := hp.keeps hk
  unfold ipv4Step ipv4Reassemble
  dsimp only
  rw [if_neg (by simp [hf.reassembled])]
  by_cases hwhole : ipv4GetFlagsMf ip = false ∧ ipv4GetFragOffset ip = 0
  · rw [if_pos (by simp [hwhole])]
    refine ⟨⟨hp, hhole, hentry⟩, .inl ?_⟩
    rw [Option.map_some, hf.bytes, hwhole.2, hf.last.1 hwhole.1, slice_zero, take_length]
  rw [if_neg (by simpa using hwhole)]
  unfold ipv4FragTableInsert
  cases ht : table (ipv4FragKey ip) with
  | none =>
    have hp' : ∀ h, pendingOf (h, Function.update table (ipv4FragKey ip) (some [ip]))
        (ipv4FragKey ip) = [ip] := fun h => by simp [pendingOf]
    refine ⟨⟨?_, fun _ => ?_, by simp⟩, .inr ⟨rfl, by simp [hp'], fun x hx => ?_⟩⟩
    · rw [hp']
      exact ⟨by simpa using hf, pairwise_singleton _ _, pairwise_singleton _ _⟩
    · rw [hp']
      exact hf.hole hwhole
    · rw [hp']
      rcases hx with hx | hx
      · simp [pendingOf, ht, Covered] at hx
      · exact ⟨ip, by simp, hx⟩
  | some list =>
    have hlist : pendingOf (h0, table) (ipv4FragKey ip) = list := by simp [pendingOf, ht]
    have hne : list ≠ [] := fun hn => hentry (by rw [ht, hn])
    rw [hlist] at hp hhole ha hc ⊢
    have hins := hp.insert hne hf hc ha
    have hp' : ∀ h, pendingOf (h, Function.update table (ipv4FragKey ip)
        (some (ipv4FragInsert list ip).1)) (ipv4FragKey ip) = (ipv4FragInsert list ip).1 :=
      fun h => by simp [pendingOf]
    cases hret : (ipv4FragInsert list ip).2 with
    | false =>
      simp only [hret, Bool.false_eq_true, if_false]
      refine ⟨⟨?_, fun _ => ?_, by simpa using hins.ne⟩, .inr ⟨rfl, ?_, fun x hx => ?_⟩⟩
      · rw [hp']
        exact hins.pending
      · rw [hp']
        exact hins.hole hret (hhole hne)
      · rw [hp']
        exact hins.ne
      · rw [hp']
        exact hins.covers x hx
    | true =>
      simp only [hret, if_true]
      obtain ⟨hgap, hlast⟩ := hins.complete hret
      refine ⟨fragInv_empty (by simp), .inl ?_⟩
      exact congrArg some (rebuild_content hins.pending hgap hlast rfl)

/-- **Run.** Deliveries return nothing but the payload; without return, they leave pending
fragments that cover all of them. -/
theorem ipv4Run_spec {is : List (Heap × Ipv4)} (hi : FragInv P key σ)
    (hg : Guarded ipv4Step (CompatibleDelivery P key) σ is) :
    FragInv P key (run ipv4Step σ is).1 ∧ (∀ p, some p ∈ (run ipv4Step σ is).2 → p = P) ∧
    (some P ∈ (run ipv4Step σ is).2 ∨
      (is ≠ [] → pendingOf (run ipv4Step σ is).1 key ≠ []) ∧
      ∀ x, Covered ipv4GetFragOffset fragStop (pendingOf σ key ++ is.map Prod.snd) x →
        Covered ipv4GetFragOffset fragStop (pendingOf (run ipv4Step σ is).1 key) x) := by
  induction is generalizing σ with
  | nil => exact ⟨hi, by simp, .inr ⟨by simp, fun x hx => by simpa using hx⟩⟩
  | cons i is ih =>
    obtain ⟨hi', hstep⟩ := ipv4Step_spec hi hg.1
    obtain ⟨hinv, hout, hrest⟩ := ih hi' hg.2
    simp only [run_cons, mem_cons]
    refine ⟨hinv, fun p hp => ?_, ?_⟩
    · rcases hp with hp | hp
      · rcases hstep with heq | ⟨heq, -⟩
        · simpa [heq] using hp
        · simp [heq] at hp
      · exact hout p hp
    · rcases hstep with heq | ⟨-, hne, hcov⟩
      · exact .inl (.inl heq.symm)
      rcases hrest with hmem | ⟨hpend, hrest⟩
      · exact .inl (.inr hmem)
      refine .inr ⟨fun _ => ?_, fun x hx => hrest x ?_⟩
      · cases is with
        | nil => exact hne
        | cons j js => exact hpend (by simp)
      · obtain ⟨g, hg, hx⟩ := hx
        simp only [map_cons, mem_append, mem_cons] at hg
        rcases hg with hg | rfl | hg
        · obtain ⟨f, hf, hx⟩ := hcov x (.inl ⟨g, hg, hx⟩)
          exact ⟨f, mem_append_left _ hf, hx⟩
        · obtain ⟨f, hf, hx⟩ := hcov x (.inr hx)
          exact ⟨f, mem_append_left _ hf, hx⟩
        · exact ⟨g, mem_append_right _ hg, hx⟩

/-- **Reassembly.** From an empty table, deliver fragments of `P` that are compatible with the
pending ones. Every datagram returned has the payload `P`, and every stretch that covers `P` returns
one. -/
theorem fragments_reassembled {table : Ipv4FragTable} (ht : table key = none)
    (before is : List (Heap × Ipv4))
    (hg : Guarded ipv4Step (CompatibleDelivery P key) (h, table) (before ++ is)) :
    (∀ p, some p ∈ (run ipv4Step (run ipv4Step (h, table) before).1 is).2 → p = P) ∧
    (is ≠ [] → CoversPayload P is →
      some P ∈ (run ipv4Step (run ipv4Step (h, table) before).1 is).2) := by
  obtain ⟨hbefore, hg⟩ := (guarded_append _ _ _).1 hg
  have hi := (ipv4Run_spec (fragInv_empty ht) hbefore).1
  obtain ⟨hinv, hout, hrest⟩ := ipv4Run_spec hi hg
  refine ⟨hout, fun hne hcov => hrest.resolve_right fun ⟨hpend, hall⟩ => ?_⟩
  -- without return the pending fragments would cover the payload
  obtain ⟨x, hx, hnot⟩ := hinv.hole (hpend hne)
  obtain ⟨g, hmem, hgx⟩ := hcov x hx
  exact hnot (hall x ⟨g, mem_append_right _ hmem, hgx⟩)

end Runs

/-! ## Overlaps -/

def samplePayload : List UInt8 := (range 32).map UInt8.ofNat

def sampleHeap : Heap := ⟨100, fun a => if a = 1 then samplePayload else []⟩

/-- The fragment of the payload with the given offset and size, in one chunk at `address`. -/
def sampleFragment (address offset size : ℕ) (mf writable : Bool) : Heap × Ipv4 :=
  (sampleHeap, ⟨address,
    ⟨5, 20 + size, 7, UInt16.ofNat (offset / 8) ||| (if mf then 0x2000 else 0), 17, 1, 2⟩, false,
    ⟨[⟨address, ⟨false, false, writable, false⟩, .basic 1, offset, size⟩],
      endChunk (address + 1) writable⟩⟩)

/-- A duplicate, a fragment contained in another one with the same end, and a last fragment that
overlaps both. -/
def compatibleRun : List (Heap × Ipv4) :=
  [sampleFragment 10 8 8 true true, sampleFragment 20 8 24 false true,
    sampleFragment 30 8 8 true true, sampleFragment 40 0 16 true true]

theorem fragments_reassembled_compatible :
    Guarded ipv4Step (CompatibleDelivery samplePayload ⟨1, 2, 7, 17⟩) (sampleHeap, fun _ => none)
      ([] ++ compatibleRun) ∧
    CoversPayload samplePayload compatibleRun ∧
    some samplePayload ∈ (run ipv4Step (sampleHeap, fun _ => none) compatibleRun).2 := by
  have hg : Guarded ipv4Step (CompatibleDelivery samplePayload ⟨1, 2, 7, 17⟩)
      (sampleHeap, fun _ => none) ([] ++ compatibleRun) := by decide +kernel
  have hcov : CoversPayload samplePayload compatibleRun := by decide +kernel
  exact ⟨hg, hcov, (fragments_reassembled rfl [] compatibleRun hg).2 (by simp [compatibleRun]) hcov⟩

def containedRun : List (Heap × Ipv4) :=
  [sampleFragment 10 0 24 true true, sampleFragment 20 8 8 true true,
    sampleFragment 30 24 8 false true]

def partialRun : List (Heap × Ipv4) :=
  [sampleFragment 10 0 16 true true, sampleFragment 20 8 16 true true,
    sampleFragment 30 24 8 false true]

def readonlyRun : List (Heap × Ipv4) :=
  [sampleFragment 10 0 16 true false, sampleFragment 20 8 24 false false]

/-- **Overlaps.** Behind a contained fragment the datagram is never complete, behind a cut one the
rest is lost, and a read-only one is not cut. -/
theorem overlapping_fragments_lost : (∀ is ∈ [containedRun, partialRun, readonlyRun],
      Guarded ipv4Step (Delivery samplePayload ⟨1, 2, 7, 17⟩) (sampleHeap, fun _ => none) is ∧
      CoversPayload samplePayload is) ∧
    (run ipv4Step (sampleHeap, fun _ => none) containedRun).2 = [none, none, none] ∧
    (run ipv4Step (sampleHeap, fun _ => none) partialRun).2 =
      [none, none, some (samplePayload.take 24)] ∧
    (run ipv4Step (sampleHeap, fun _ => none) readonlyRun).2 =
      [none, some (samplePayload.take 16 ++ samplePayload.drop 8)] := by
  decide +kernel

end Haka
