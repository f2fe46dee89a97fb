import Haka.Ipv4.Reassembly

/-!
# Fragments in any order

A payload is cut into adjacent fragments, all of which but the last carry data, and each of them is
delivered once. Whatever their order, the pending list is sorted and holds what was delivered. Only
the last delivery makes it complete, and then it is the list of all fragments in their order, whose
payloads are pushed to the stream one after the other.
-/

namespace Haka

open List Reassembly Machine Cover

/-! ## A payload cut into fragments -/

/-- The fragments of `n` bytes from position `a` on: each starts where the one before it ends, and
only the last one has no more-fragments flag. -/
def CutInto (n : ℕ) : ℕ → List Ipv4 → Prop
  | _, [] => False
  | a, [f] => ipv4GetFragOffset f = a ∧ fragStop f = n ∧ ipv4GetFlagsMf f = false
  | a, f :: g :: rest =>
    ipv4GetFragOffset f = a ∧ a < fragStop f ∧ ipv4GetFlagsMf f = true ∧
      CutInto n (fragStop f) (g :: rest)

/-- A packet that holds the slice of the payload `P` its header says. -/
structure Piece (P : List UInt8) (h : Heap) (ip : Ipv4) : Prop where
  reassembled : ip.dontReassemble = false
  len : ipv4GetLen ip = ipv4GetHdrLen ip + vbufferSize ip.packetPayload
  bytes : ip.packetPayload.content h = slice P (ipv4GetFragOffset ip) (fragStop ip)
  wf : ip.packetPayload.WF h
  plain : ∀ c ∈ ip.packetPayload.body, Plain 0 false c

/-- Some of the fragments, sorted by their offsets, each in a buffer of its own. -/
structure PartOf (P : List UInt8) (frags : List Ipv4) (h : Heap) (list : List Ipv4) : Prop where
  sorted : list.Pairwise fun a b => ipv4GetFragOffset a < ipv4GetFragOffset b
  subset : ∀ f ∈ list, f ∈ frags
  pieces : ∀ f ∈ list, Piece P h f
  apart : list.Pairwise fun a b => a.packetPayload.Apart b.packetPayload

section Cut

variable {n a : ℕ} {frags list : List Ipv4}

section

variable (hc : CutInto n a frags)

include hc

theorem CutInto.ne : frags ≠ [] := by
  rintro rfl
  exact hc

theorem CutInto.sorted :
    frags.Pairwise (fun f g => ipv4GetFragOffset f < ipv4GetFragOffset g) ∧
      ∀ f ∈ frags, a ≤ ipv4GetFragOffset f := by
  induction frags generalizing a with
  | nil => exact absurd hc id
  | cons f frags ih =>
    cases frags with
    | nil =>
      refine ⟨pairwise_singleton _ _, ?_⟩
      rintro g hg
      rw [mem_singleton.1 hg]
      exact hc.1.ge
    | cons g rest =>
      obtain ⟨hoff, hlt, -, hc⟩ := hc
      obtain ⟨hs, hge⟩ := ih hc
      constructor
      · rw [pairwise_cons]
        refine ⟨fun x hx => ?_, hs⟩
        have := hge x hx
        omega
      · rintro x hx
        rcases mem_cons.1 hx with rfl | hx
        · omega
        · have := hge x hx
          omega

theorem CutInto.nodup : frags.Nodup := by
  refine hc.sorted.1.imp fun hlt => ?_
  rintro rfl
  exact lt_irrefl _ hlt

theorem CutInto.eq_of_offset {f g : Ipv4} (hf : f ∈ frags) (hg : g ∈ frags)
    (h : ipv4GetFragOffset f = ipv4GetFragOffset g) : f = g := by
  have hnodup : (frags.map ipv4GetFragOffset).Nodup :=
    pairwise_map.2 (hc.sorted.1.imp fun hlt => hlt.ne)
  exact inj_on_of_nodup_map hnodup hf hg h

theorem CutInto.le_last {f g : Ipv4} (hf : f ∈ frags) (hg : g ∈ frags)
    (hmf : ipv4GetFlagsMf f = false) : ipv4GetFragOffset g ≤ ipv4GetFragOffset f := by
  induction frags generalizing a with
  | nil => exact absurd hc id
  | cons x frags ih =>
    cases frags with
    | nil => rw [mem_singleton.1 hf, mem_singleton.1 hg]
    | cons y rest =>
      have hge := hc.sorted.2 f hf
      obtain ⟨hoff, -, hx, hc⟩ := hc
      rcases mem_cons.1 hf with rfl | hf
      · rw [hx] at hmf
        cases hmf
      · rcases mem_cons.1 hg with rfl | hg
        · omega
        · exact ih hc hf hg

/-- **The complete list.** A sorted part of the fragments without gap that has the last fragment is
all of them. -/
theorem CutInto.eq_of_noGap
    (hs : list.Pairwise fun f g => ipv4GetFragOffset f < ipv4GetFragOffset g)
    (hsub : ∀ f ∈ list, f ∈ frags) (hgap : NoGap ipv4GetFragOffset fragStop a list)
    (hlast : ∃ f ∈ list, ipv4GetFlagsMf f = false) : list = frags := by
  induction frags generalizing a list with
  | nil => exact absurd hc id
  | cons x frags ih =>
    obtain ⟨f, hf, hmf⟩ := hlast
    cases list with
    | nil => cases hf
    | cons g list =>
      obtain ⟨hgt, hs⟩ := pairwise_cons.1 hs
      obtain ⟨hstart, hgap⟩ := hgap
      -- the first of the list is the first fragment, as the others start later
      have hsorted := pairwise_cons.1 hc.sorted.1
      have hx : ipv4GetFragOffset x = a := by
        cases frags with
        | nil => exact hc.1
        | cons y rest => exact hc.1
      obtain rfl : g = x := by
        rcases mem_cons.1 (hsub g mem_cons_self) with h | h
        · exact h
        · have := hsorted.1 g h
          omega
      have hsub' : ∀ y ∈ list, y ∈ frags := by
        intro y hy
        rcases mem_cons.1 (hsub y (mem_cons_of_mem _ hy)) with rfl | h
        · exact absurd (hgt y hy) (lt_irrefl _)
        · exact h
      cases frags with
      | nil => rw [eq_nil_iff_forall_not_mem.2 fun y hy => absurd (hsub' y hy) (by simp)]
      | cons y rest =>
        obtain ⟨-, -, hmf', hc⟩ := hc
        have hlast' : ∃ f ∈ list, ipv4GetFlagsMf f = false := by
          rcases mem_cons.1 hf with rfl | hf
          · rw [hmf'] at hmf
            cases hmf
          · exact ⟨f, hf, hmf⟩
        rw [ih hc hs hsub' hgap hlast']

theorem CutInto.checkLoop
    (hlen : ∀ f ∈ frags, ipv4GetLen f = ipv4GetHdrLen f + vbufferSize f.packetPayload) :
    checkLoop a frags = some true := by
  induction frags generalizing a with
  | nil => exact absurd hc id
  | cons f frags ih =>
    have hstop : ipv4GetFragOffset f + (ipv4GetLen f - ipv4GetHdrLen f) = fragStop f := by
      rw [hlen f mem_cons_self, Nat.add_sub_cancel_left]
      rfl
    rw [Haka.checkLoop, hstop]
    cases frags with
    | nil =>
      obtain ⟨hoff, -, hmf⟩ := hc
      rw [if_neg (by omega), if_pos (by simp [hmf])]
    | cons g rest =>
      obtain ⟨hoff, -, hmf, hc⟩ := hc
      rw [if_neg (by omega), if_neg (by simp [hmf])]
      exact ih hc fun x hx => hlen x (mem_cons_of_mem _ hx)

end

end Cut

/-! ## Insertion -/

section Insertion

variable {P : List UInt8} {h h' : Heap} {n : ℕ} {ip : Ipv4} {frags list : List Ipv4}

theorem Piece.keeps (hf : Piece P h ip) (hk : h.Keeps h' ip.packetPayload.all) : Piece P h' ip := by
  refine { hf with bytes := ?_, wf := hf.wf.keeps hk }
  rw [← hf.bytes]
  exact bytesOf_keeps hk fun x hx => mem_append_left _ hx

theorem PartOf.keeps (hp : PartOf P frags h list)
    (hk : ∀ f ∈ list, h.Keeps h' f.packetPayload.all) : PartOf P frags h' list :=
  { hp with pieces := fun f hf => (hp.pieces f hf).keeps (hk f hf) }

section

variable (hp : PartOf P frags h list) (hc : CutInto n 0 frags)

include hp hc

theorem PartOf.mf :
    list.Pairwise fun f _ => ipv4GetFlagsMf f = true := by
  refine hp.sorted.imp_of_mem fun {f g} hf hg hlt => ?_
  by_contra hmf
  have := hc.le_last (hp.subset f hf) (hp.subset g hg) (by simpa using hmf)
  omega

/-- **Insertion.** A fragment that is not there yet is added at its place, and no other one is
dropped. -/
theorem PartOf.insert (hne : list ≠ [])
    (hip : ip ∈ frags) (hnew : ip ∉ list) (hf : Piece P h ip)
    (ha : ∀ g ∈ list, g.packetPayload.Apart ip.packetPayload) :
    ∃ new, ipv4FragInsert list ip = (new, ipv4FragCheckMissingFragments new) ∧
      new.Perm (ip :: list) ∧ PartOf P frags h new := by
  have hle : list.Pairwise fun a b => ipv4GetFragOffset a ≤ ipv4GetFragOffset b :=
    hp.sorted.imp fun h => h.le
  rcases fragInsert_cases ip hle (hp.mf hc) hne with ⟨last, hlast, hmf, hlt, -⟩ |
    ⟨before, after, new, rfl, hlt, hge, -, hnew', heq⟩
  · have := hc.le_last (hp.subset last hlast) hip hmf
    omega
  -- no two fragments have the same offset
  have hgt : ∀ b ∈ after, ipv4GetFragOffset ip < ipv4GetFragOffset b := by
    intro b hb
    refine lt_of_le_of_ne (hge b hb) fun he => hnew ?_
    rw [hc.eq_of_offset hip (hp.subset b (mem_append_right _ hb)) he]
    exact mem_append_right _ hb
  have hkept : (if !ipv4GetFlagsMf ip then [] else after) = after := by
    by_cases hmf : ipv4GetFlagsMf ip = true
    · simp [hmf]
    · rw [if_pos (by simpa using hmf)]
      refine (eq_nil_iff_forall_not_mem.2 fun b hb => ?_).symm
      have := hc.le_last hip (hp.subset b (mem_append_right _ hb)) (by simpa using hmf)
      have := hgt b hb
      omega
  rw [hkept] at hnew'
  subst hnew'
  refine ⟨_, heq, perm_middle, ?_, ?_, ?_, ?_⟩
  · exact pairwise_insert hp.sorted hlt hgt
  · intro f hfm
    rcases mem_append.1 hfm with h1 | h1
    · exact hp.subset f (mem_append_left _ h1)
    · rcases mem_cons.1 h1 with rfl | h1
      · exact hip
      · exact hp.subset f (mem_append_right _ h1)
  · intro f hfm
    rcases mem_append.1 hfm with h1 | h1
    · exact hp.pieces f (mem_append_left _ h1)
    · rcases mem_cons.1 h1 with rfl | h1
      · exact hf
      · exact hp.pieces f (mem_append_right _ h1)
  · exact pairwise_insert hp.apart (fun a h1 => ha a (mem_append_left _ h1))
      fun b h1 => (ha b (mem_append_right _ h1)).symm

theorem PartOf.check_iff (hne : list ≠ []) :
    ipv4FragCheckMissingFragments list = true ↔ list = frags := by
  rw [check_iff_loop hne]
  constructor
  · intro hcheck
    rw [checkLoop_iff (fun f hf => (hp.pieces f hf).len) (hp.mf hc)] at hcheck
    exact hc.eq_of_noGap hp.sorted hp.subset hcheck.1 hcheck.2
  · rintro rfl
    exact hc.checkLoop fun f hf => (hp.pieces f hf).len

end

end Insertion

/-! ## The rebuilt payload -/

/-- The payloads of the fragments are pushed to the stream one after the other. -/
def pushFragments (h : Heap) (payload : VbufferStream ℕ) (frags : List Ipv4) :
    Heap × VbufferStream ℕ :=
  frags.foldl (fun σ f =>
    ((vbufferStreamPush σ.1 σ.2 f.packetPayload (some f.address)).1,
      (vbufferStreamPush σ.1 σ.2 f.packetPayload (some f.address)).2.1)) (h, payload)

section Rebuild

variable {P : List UInt8} {h : Heap} {s : VbufferStream ℕ} {a n : ℕ} {frags : List Ipv4}

theorem CutInto.rebuildLoop_eq (hc : CutInto n a frags) (h : Heap) (s : VbufferStream ℕ) :
    rebuildLoop h s a frags = pushFragments h s frags := by
  induction frags generalizing a h s with
  | nil => rfl
  | cons f frags ih =>
    have hoff : ipv4GetFragOffset f = a := by
      cases frags with
      | nil => exact hc.1
      | cons g rest => exact hc.1
    have hstop : a + vbufferSize f.packetPayload = fragStop f := by
      rw [← hoff]
      rfl
    rw [rebuildLoop, if_neg (not_not.2 hoff), hstop]
    cases frags with
    | nil => rfl
    | cons g rest => exact ih hc.2.2.2 _ _

theorem Rebuilt.pushFragments (hc : CutInto P.length a frags) (hs : Rebuilt P h s a)
    (hpieces : ∀ f ∈ frags, Piece P h f)
    (hapart : frags.Pairwise fun f g => f.packetPayload.Apart g.packetPayload)
    (hb : ∀ f ∈ frags, Pushable false h s f.packetPayload) :
    Rebuilt P (pushFragments h s frags).1 (pushFragments h s frags).2 P.length := by
  induction frags generalizing a h s with
  | nil => exact absurd hc id
  | cons f frags ih =>
    obtain ⟨hapartf, hapart⟩ := pairwise_cons.1 hapart
    have hoff : ipv4GetFragOffset f = a := by
      cases frags with
      | nil => exact hc.1
      | cons g rest => exact hc.1
    have hle : a ≤ fragStop f := by
      rw [← hoff]
      exact Nat.le_add_right _ _
    obtain ⟨h', s', cur, hpush, hfr, hs'⟩ := hs.push (hb f mem_cons_self) hle
      (by rw [(hpieces f mem_cons_self).bytes, hoff]) (some f.address)
    have hcons : Haka.pushFragments h s (f :: frags) = Haka.pushFragments h' s' frags := by
      show Haka.pushFragments (vbufferStreamPush h s f.packetPayload (some f.address)).1
        (vbufferStreamPush h s f.packetPayload (some f.address)).2.1 frags = _
      rw [hpush]
    rw [hcons]
    cases frags with
    | nil =>
      rw [← hc.2.1]
      exact hs'
    | cons g rest =>
      refine ih hc.2.2.2 hs' (fun x hx => (hpieces x (mem_cons_of_mem _ hx)).keeps
        ⟨hfr.next, fun c _ => by rw [hfr.mem]⟩) hapart fun x hx => ?_
      exact (hb x (mem_cons_of_mem _ hx)).push hfr (hapartf x hx)

theorem PartOf.content (hp : PartOf P frags h frags) (hc : CutInto P.length 0 frags)
    {r : Heap × VbufferStream ℕ} (hr : r = vbufferStreamInit h) :
    (vbufferStreamFinish (rebuildLoop r.1 r.2 0 frags).2).data.content
      (rebuildLoop r.1 r.2 0 frags).1 = P := by
  subst hr
  rw [hc.rebuildLoop_eq]
  have hkeep : ∀ f ∈ frags, h.Keeps (vbufferStreamInit (υ := ℕ) h).1 f.packetPayload.all :=
    fun f _ => ⟨show h.next ≤ h.next + 1 + 1 by omega, fun c _ => rfl⟩
  exact ((rebuilt_init P h).pushFragments hc (fun f hf => (hp.pieces f hf).keeps (hkeep f hf))
    hp.apart fun f hf => pushable_init (hp.pieces f hf).wf (hp.pieces f hf).plain).content

end Rebuild

/-! ## Deliveries -/

/-- The delivery of a slice of the payload `P`, in a buffer of its own, while the heap still holds the
pending fragments. -/
structure PieceDelivery (P : List UInt8) (key : Ipv4FragKey) (σ : Heap × Ipv4FragTable)
    (i : Heap × Ipv4) : Prop where
  ofKey : ipv4FragKey i.2 = key
  piece : Piece P i.1 i.2
  apart : ∀ g ∈ pendingOf σ key, g.packetPayload.Apart i.2.packetPayload
  keeps : ∀ g ∈ pendingOf σ key, σ.1.Keeps i.1 g.packetPayload.all

section Runs

variable {P : List UInt8} {key : Ipv4FragKey} {σ : Heap × Ipv4FragTable} {i : Heap × Ipv4}
  {frags : List Ipv4}

theorem CutInto.not_whole {n : ℕ} {ip : Ipv4} (hc : CutInto n 0 frags) (h2 : 2 ≤ frags.length)
    (hip : ip ∈ frags) : ¬(ipv4GetFlagsMf ip = false ∧ ipv4GetFragOffset ip = 0) := by
  rintro ⟨hmf, hoff⟩
  obtain ⟨f, g, rest, rfl⟩ : ∃ f g rest, frags = f :: g :: rest := by
    match frags, h2 with
    | f :: g :: rest, _ => exact ⟨f, g, rest, rfl⟩
  have hlt := (pairwise_cons.1 hc.sorted.1).1 g mem_cons_self
  have hle := hc.le_last hip (mem_cons_of_mem f mem_cons_self) hmf
  omega

/-- **Step.** A delivery adds the fragment to the pending ones, and returns the payload when they are
all there. -/
theorem piece_step (hc : CutInto P.length 0 frags) (h2 : 2 ≤ frags.length)
    (hentry : σ.2 key ≠ some []) (hp : PartOf P frags σ.1 (pendingOf σ key))
    (hd : PieceDelivery P key σ i) (hip : i.2 ∈ frags) (hnew : i.2 ∉ pendingOf σ key) :
    ∃ new, new.Perm (i.2 :: pendingOf σ key) ∧ PartOf P frags i.1 new ∧
      (new ≠ frags → ipv4Step σ i = ((i.1, Function.update σ.2 key (some new)), none)) ∧
      (new = frags → (ipv4Step σ i).2 = some P ∧
        ipv4FragInsert (pendingOf σ key) i.2 = (frags, true)) := by
  obtain ⟨h0, table⟩ := σ
  obtain ⟨h, ip⟩ := i
  obtain ⟨rfl, hf, ha, hk⟩ := hd
  dsimp only at hf ha hk hp hentry hip hnew ⊢
  replace hp := hp.keeps hk
  have hwhole := hc.not_whole h2 hip
  unfold ipv4Step ipv4Reassemble
  dsimp only
  rw [if_neg (by simp [hf.reassembled]), if_neg (by simpa using hwhole)]
  unfold ipv4FragTableInsert
  cases ht : table (ipv4FragKey ip) with
  | none =>
    have hlist : pendingOf (h0, table) (ipv4FragKey ip) = [] := by simp [pendingOf, ht]
    rw [hlist]
    refine ⟨[ip], List.Perm.refl _, ⟨pairwise_singleton _ _, by simpa using hip,
      by simpa using hf, pairwise_singleton _ _⟩, fun _ => rfl, ?_⟩
    rintro rfl
    simp at h2
  | some list =>
    have hlist : pendingOf (h0, table) (ipv4FragKey ip) = list := by simp [pendingOf, ht]
    have hne : list ≠ [] := fun hn => hentry (by rw [ht, hn])
    rw [hlist] at hp ha hnew ⊢
    obtain ⟨new, heq, hperm, hnew'⟩ := hp.insert hc hne hip hnew hf ha
    have hcheck := hnew'.check_iff hc (by rintro rfl; simpa using hperm.length_eq)
    refine ⟨new, hperm, hnew', fun hnot => ?_, fun hall => ?_⟩
    · have hret : ipv4FragCheckMissingFragments new = false :=
        Bool.eq_false_iff.2 fun h => hnot (hcheck.1 h)
      simp only [heq, hret, Bool.false_eq_true, if_false, Option.map_none]
    · subst hall
      have hret : ipv4FragCheckMissingFragments new = true := hcheck.2 rfl
      refine ⟨?_, by rw [heq, hret]⟩
      simp only [heq, hret, if_true, Option.map_some]
      exact congrArg some (hnew'.content hc rfl)

/-- **Before the last delivery** nothing is returned, and the pending fragments are those that were
delivered. -/
theorem pieces_pending (hc : CutInto P.length 0 frags) {before after : List (Heap × Ipv4)}
    (hafter : after ≠ []) (hg : Guarded ipv4Step (PieceDelivery P key) σ before)
    (hentry : σ.2 key ≠ some []) (hp : PartOf P frags σ.1 (pendingOf σ key))
    (hperm : (pendingOf σ key ++ (before ++ after).map Prod.snd).Perm frags) :
    (run ipv4Step σ before).2 = replicate before.length none ∧
    (run ipv4Step σ before).1.2 key ≠ some [] ∧
    PartOf P frags (run ipv4Step σ before).1.1 (pendingOf (run ipv4Step σ before).1 key) ∧
    (pendingOf (run ipv4Step σ before).1 key).Perm (pendingOf σ key ++ before.map Prod.snd) := by
  induction before generalizing σ with
  | nil => exact ⟨rfl, hentry, hp, by simp⟩
  | cons i before ih =>
    have hlength := hperm.length_eq
    have hpos : 0 < after.length := length_pos_iff.2 hafter
    simp only [cons_append, map_cons, length_append, length_cons, length_map] at hlength
    have hnodup : (pendingOf σ key ++ ((i :: before) ++ after).map Prod.snd).Nodup :=
      hperm.nodup_iff.2 hc.nodup
    have hip : i.2 ∈ frags := hperm.subset (by simp)
    have hnew : i.2 ∉ pendingOf σ key := fun hm =>
      disjoint_of_nodup_append hnodup hm (by simp)
    obtain ⟨new, hperm', hnew', hstep, -⟩ :=
      piece_step hc (by omega) hentry hp hg.1 hip hnew
    have hstep := hstep (by
      rintro rfl
      have := hperm'.length_eq
      simp only [length_cons] at this
      omega)
    have hpend : pendingOf (ipv4Step σ i).1 key = new := by simp [hstep, pendingOf]
    obtain ⟨hout, hentry', hpart, hfinal⟩ := ih (σ := (ipv4Step σ i).1) hg.2
      (by rw [hstep]; simpa using fun h0 => by simpa [h0] using hperm'.length_eq)
      (by rw [hpend, hstep]; exact hnew')
      (by
        rw [hpend]
        exact ((hperm'.append_right _).trans (by
          simpa using (@perm_middle _ i.2 (pendingOf σ key) _).symm)).trans hperm)
    rw [run_cons]
    refine ⟨by rw [hout, hstep]; rfl, hentry', hpart, hfinal.trans ?_⟩
    rw [hpend]
    exact (hperm'.append_right _).trans (by
      simpa using (@perm_middle _ i.2 (pendingOf σ key) _).symm)

/-- **The last delivery** returns the payload, made of all fragments. -/
theorem last_piece (hc : CutInto P.length 0 frags) (hentry : σ.2 key ≠ some [])
    (hp : PartOf P frags σ.1 (pendingOf σ key)) (hd : PieceDelivery P key σ i)
    (hperm : (pendingOf σ key ++ [i.2]).Perm frags) :
    (ipv4Step σ i).2 = some P ∧
      (pendingOf σ key ≠ [] → ipv4FragInsert (pendingOf σ key) i.2 = (frags, true)) := by
  have hlength := hperm.length_eq
  rw [length_append, length_singleton] at hlength
  by_cases hpend : pendingOf σ key = []
  · rw [hpend, nil_append, singleton_perm] at hperm
    subst hperm
    obtain ⟨hoff, hstop, hmf⟩ := hc
    refine ⟨?_, fun h => absurd hpend h⟩
    unfold ipv4Step ipv4Reassemble
    dsimp only
    rw [if_neg (by simp [hd.piece.reassembled]), if_pos (by simp [hmf, hoff]), Option.map_some,
      hd.piece.bytes, hoff, hstop, slice_zero, take_length]
  · have hpos : 0 < (pendingOf σ key).length := length_pos_iff.2 hpend
    have hnodup : (pendingOf σ key ++ [i.2]).Nodup := hperm.nodup_iff.2 hc.nodup
    have hnew : i.2 ∉ pendingOf σ key := fun hm =>
      disjoint_of_nodup_append hnodup hm mem_cons_self
    obtain ⟨new, hperm', hnew', -, hall⟩ :=
      piece_step hc (by omega) hentry hp hd (hperm.subset (by simp)) hnew
    have hsame : new.Perm frags :=
      hperm'.trans ((perm_append_singleton i.2 (pendingOf σ key)).symm.trans hperm)
    obtain ⟨hout, hins⟩ := hall (hsame.eq_of_pairwise
      (fun a b _ _ hab hba => absurd hab hba.asymm) hnew'.sorted hc.sorted.1)
    exact ⟨hout, fun _ => hins⟩

/-- **Any order.** Each of the fragments of a payload is delivered once. Every delivery but the last
returns nothing and leaves the delivered ones, sorted, in the list; the last one returns the
payload. -/
theorem fragments_in_any_order {h : Heap} {table : Ipv4FragTable} (ht : table key = none)
    (hc : CutInto P.length 0 frags) (is : List (Heap × Ipv4))
    (hperm : (is.map Prod.snd).Perm frags)
    (hg : Guarded ipv4Step (PieceDelivery P key) (h, table) is) :
    (run ipv4Step (h, table) is).2 = replicate (is.length - 1) none ++ [some P] ∧
    (∀ before after, is = before ++ after → after ≠ [] →
      (pendingOf (run ipv4Step (h, table) before).1 key).Pairwise
        (fun a b => ipv4GetFragOffset a < ipv4GetFragOffset b) ∧
      (pendingOf (run ipv4Step (h, table) before).1 key).Perm (before.map Prod.snd)) ∧
    (∀ before i, is = before ++ [i] → before ≠ [] →
      ipv4FragInsert (pendingOf (run ipv4Step (h, table) before).1 key) i.2 = (frags, true)) ∧
    ∀ h s, rebuildLoop h s 0 frags = pushFragments h s frags := by
  have hempty : pendingOf (h, table) key = [] := by simp [pendingOf, ht]
  have hpart : PartOf P frags h (pendingOf (h, table) key) := by
    rw [hempty]
    exact ⟨List.Pairwise.nil, by simp, by simp, List.Pairwise.nil⟩
  have hpending : ∀ before after, is = before ++ after → after ≠ [] →
      (run ipv4Step (h, table) before).2 = replicate before.length none ∧
      (run ipv4Step (h, table) before).1.2 key ≠ some [] ∧
      PartOf P frags (run ipv4Step (h, table) before).1.1
        (pendingOf (run ipv4Step (h, table) before).1 key) ∧
      (pendingOf (run ipv4Step (h, table) before).1 key).Perm (before.map Prod.snd) := by
    rintro before after rfl hafter
    have hp := pieces_pending hc hafter ((guarded_append _ _ _).1 hg).1 (by simp [ht]) hpart
      (by rw [hempty]; exact hperm)
    rwa [hempty, nil_append] at hp
  have hlast : ∀ before i, is = before ++ [i] →
      (ipv4Step (run ipv4Step (h, table) before).1 i).2 = some P ∧
      (pendingOf (run ipv4Step (h, table) before).1 key ≠ [] →
        ipv4FragInsert (pendingOf (run ipv4Step (h, table) before).1 key) i.2 = (frags, true)) := by
    intro before i his
    obtain ⟨-, hentry, hp, hpend⟩ := hpending before [i] his (by simp)
    subst his
    refine last_piece hc hentry hp ((guarded_append _ _ _).1 hg).2.1 ?_
    exact (hpend.append_right _).trans (by simpa using hperm)
  refine ⟨?_, fun before after his hafter => ?_, fun before i his hne => ?_, hc.rebuildLoop_eq⟩
  · obtain ⟨before, i, his⟩ : ∃ before i, is = before ++ [i] := by
      rcases eq_nil_or_concat is with rfl | ⟨before, i, his⟩
      · exact absurd (perm_nil.1 hperm.symm) hc.ne
      · exact ⟨before, i, by simpa using his⟩
    have hout := (hpending before [i] his (by simp)).1
    have hstep := (hlast before i his).1
    rw [his, run_append, hout, run_cons, hstep]
    simp
  · obtain ⟨-, -, hp, hpend⟩ := hpending before after his hafter
    exact ⟨hp.sorted, hpend⟩
  · refine (hlast before i his).2 fun h0 => hne ?_
    have hpend := (hpending before [i] his (by simp)).2.2.2
    rw [h0] at hpend
    simpa using nil_perm.1 hpend

end Runs

instance (P : List UInt8) (h : Heap) (ip : Ipv4) : Decidable (Piece P h ip) :=
  decidable_of_iff (ip.dontReassemble = false ∧
      ipv4GetLen ip = ipv4GetHdrLen ip + vbufferSize ip.packetPayload ∧
      ip.packetPayload.content h = slice P (ipv4GetFragOffset ip) (fragStop ip) ∧
      ip.packetPayload.WF h ∧ ∀ c ∈ ip.packetPayload.body, Plain 0 false c)
    ⟨fun ⟨h1, h2, h3, h4, h5⟩ => ⟨h1, h2, h3, h4, h5⟩,
      fun hf => ⟨hf.reassembled, hf.len, hf.bytes, hf.wf, hf.plain⟩⟩

instance (P : List UInt8) (key : Ipv4FragKey) (σ : Heap × Ipv4FragTable) (i : Heap × Ipv4) :
    Decidable (PieceDelivery P key σ i) :=
  decidable_of_iff (ipv4FragKey i.2 = key ∧ Piece P i.1 i.2 ∧
      (∀ g ∈ pendingOf σ key, g.packetPayload.Apart i.2.packetPayload) ∧
      ∀ g ∈ pendingOf σ key, σ.1.Keeps i.1 g.packetPayload.all)
    ⟨fun ⟨h1, h2, h3, h4⟩ => ⟨h1, h2, h3, h4⟩, fun hd => ⟨hd.ofKey, hd.piece, hd.apart, hd.keeps⟩⟩

def threePieces : List Ipv4 :=
  [(sampleFragment 10 0 8 true true).2, (sampleFragment 20 8 16 true true).2,
    (sampleFragment 30 24 8 false true).2]

def lastFirstRun : List (Heap × Ipv4) :=
  [sampleFragment 30 24 8 false true, sampleFragment 10 0 8 true true,
    sampleFragment 20 8 16 true true]

theorem fragments_in_any_order_last_first : CutInto samplePayload.length 0 threePieces ∧
    (lastFirstRun.map Prod.snd).Perm threePieces ∧
    Guarded ipv4Step (PieceDelivery samplePayload ⟨1, 2, 7, 17⟩) (sampleHeap, fun _ => none)
      lastFirstRun ∧
    (run ipv4Step (sampleHeap, fun _ => none) lastFirstRun).2 = [none, none, some samplePayload] := by
  have hc : CutInto samplePayload.length 0 threePieces := by
    simp only [threePieces, CutInto]
    decide +kernel
  have hperm : (lastFirstRun.map Prod.snd).Perm threePieces :=
    (perm_append_singleton _ [_, _]).symm
  have hg : Guarded ipv4Step (PieceDelivery samplePayload ⟨1, 2, 7, 17⟩)
      (sampleHeap, fun _ => none) lastFirstRun := by decide +kernel
  exact ⟨hc, hperm, hg, (fragments_in_any_order rfl hc lastFirstRun hperm hg).1⟩

end Haka
