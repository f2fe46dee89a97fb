import Mathlib.Data.List.Cycle
import Mathlib.Tactic

/-!
# Doubly linked rings

Nodes with a next and a previous one. A list of nodes is a ring if each is followed by the next one
and the last by the first. A range of a ring is cut out, and put before a node of a ring, by linking
the nodes at its ends.
-/

structure Links (α : Type*) where
  next : α → α
  prev : α → α

namespace Links

open List

variable {α : Type*} {s s' : Links α} {a b i x y : α} {l P R : List α}

def Follows (s : Links α) (x y : α) : Prop := s.next x = y ∧ s.prev y = x

structure Ring (s : Links α) (l : List α) : Prop where
  nodup : l.Nodup
  chain : (l : Cycle α).Chain s.Follows

theorem Ring.isRotated (h : Ring s l) (hl : l ~r R) : Ring s R :=
  ⟨hl.nodup_iff.1 h.nodup, Cycle.coe_eq_coe.2 hl ▸ h.chain⟩

theorem Ring.rotate (h : Ring s (P ++ R)) : Ring s (R ++ P) :=
  h.isRotated isRotated_append

theorem ring_iff : Ring s l ↔ l.Nodup ∧ l.IsChain s.Follows ∧
    ∀ x ∈ l.getLast?, ∀ y ∈ l.head?, s.Follows x y := by
  have hchain : (l : Cycle α).Chain s.Follows ↔
      l.IsChain s.Follows ∧ ∀ x ∈ l.getLast?, ∀ y ∈ l.head?, s.Follows x y := by
    cases l with
    | nil => simp
    | cons y l =>
      rw [Cycle.chain_coe_cons, ← cons_append, isChain_append]
      simp
  rw [← hchain]
  exact ⟨fun h => ⟨h.1, h.2⟩, fun h => ⟨h.1, h.2⟩⟩

theorem Ring.prev_mem (h : Ring s (P ++ R)) (hP : P ≠ []) (hx : x ∈ R.head?) :
    s.prev x ∈ P.getLast? := by
  have hp := getLast?_eq_some_getLast hP
  obtain ⟨-, hprev⟩ := (isChain_append.1 (ring_iff.1 h).2.1).2.2 _ hp x hx
  exact hprev ▸ hp

/-! ## Frames -/

theorem chain_congr (h : l.IsChain s.Follows) (hnext : ∀ x ∈ l.dropLast, s'.next x = s.next x)
    (hprev : ∀ y ∈ l.tail, s'.prev y = s.prev y) : l.IsChain s'.Follows := by
  induction l with
  | nil => exact .nil
  | cons x l ih =>
    cases l with
    | nil => exact .singleton x
    | cons y l =>
      rw [isChain_cons_cons] at h ⊢
      simp only [dropLast_cons_cons, mem_cons, tail_cons, forall_eq_or_imp] at hnext hprev
      refine ⟨⟨hnext.1.trans h.1.1, hprev.1.trans h.1.2⟩, ih h.2 hnext.2 fun z hz => hprev.2 z ?_⟩
      simpa using hz

theorem Ring.map {f : α → α} (h : Ring s l) (hf : Function.Injective f)
    (hnext : ∀ x ∈ l, s'.next (f x) = f (s.next x))
    (hprev : ∀ x ∈ l, s'.prev (f x) = f (s.prev x)) : Ring s' (l.map f) := by
  obtain ⟨hnd, hchain, hclose⟩ := ring_iff.1 h
  have hfollows : ∀ x y, x ∈ l → y ∈ l → s.Follows x y → s'.Follows (f x) (f y) := by
    rintro x y hx hy ⟨rfl, h2⟩
    exact ⟨hnext x hx, (hprev _ hy).trans (congrArg f h2)⟩
  refine ring_iff.2 ⟨hnd.map hf, (isChain_map f).2 (hchain.imp_of_mem_imp hfollows), ?_⟩
  simp only [getLast?_map, head?_map, Option.mem_map, forall_exists_index, and_imp,
    forall_apply_eq_imp_iff₂]
  exact fun x hx y hy =>
    hfollows x y (mem_of_getLast? hx) (mem_of_head? hy) (hclose x hx y hy)

theorem Ring.congr (h : Ring s l) (hnext : ∀ x ∈ l, s'.next x = s.next x)
    (hprev : ∀ x ∈ l, s'.prev x = s.prev x) : Ring s' l := by
  simpa using h.map Function.injective_id hnext hprev

/-- The next and the previous node are inverse, and both are in the ring. -/
theorem Ring.closed (h : Ring s l) (hx : x ∈ l) :
    s.next x ∈ l ∧ s.prev x ∈ l ∧ s.prev (s.next x) = x ∧ s.next (s.prev x) = x := by
  obtain ⟨P, R, rfl⟩ := append_of_mem hx
  obtain ⟨y, hy⟩ : ∃ y, y ∈ (R ++ P ++ [x]).head? := ⟨_, head?_eq_some_head (by simp)⟩
  obtain ⟨z, hz⟩ : ∃ z, z ∈ (x :: (R ++ P)).getLast? := ⟨_, getLast?_eq_some_getLast (by simp)⟩
  have hchain : (x :: (R ++ P ++ [x])).IsChain s.Follows := h.rotate.chain
  obtain ⟨hnext, hprev⟩ := (isChain_cons.1 hchain).1 y hy
  obtain ⟨hnext', hprev'⟩ := (isChain_append.1 hchain).2.2 z hz x rfl
  have hyl := mem_of_head? hy
  have hzl := mem_of_getLast? hz
  subst hnext hprev'
  simp only [mem_append, mem_cons, not_mem_nil, or_false] at hyl hzl ⊢
  exact ⟨by tauto, by tauto, hprev, hnext'⟩

variable [DecidableEq α]

def setNext (s : Links α) (x y : α) : Links α := { s with next := Function.update s.next x y }

def setPrev (s : Links α) (x y : α) : Links α := { s with prev := Function.update s.prev x y }

/-- The node `y` is put behind `x`. -/
def link (s : Links α) (x y : α) : Links α := (s.setNext x y).setPrev y x

theorem Ring.link (h : Ring s l) (hx : x ∉ l) (hy : y ∉ l) : Ring (s.link x y) l :=
  h.congr (fun _ hz => Function.update_of_ne (ne_of_mem_of_not_mem hz hx) _ _)
    fun _ hz => Function.update_of_ne (ne_of_mem_of_not_mem hz hy) _ _

theorem follows_link : (s.link x y).Follows x y := by
  simp [Follows, Links.link, setNext, setPrev]

theorem Follows.link (h : s.Follows a b) (ha : a ≠ x) (hb : b ≠ y) : (s.link x y).Follows a b := by
  simpa [Follows, Links.link, setNext, setPrev, ha, hb] using h

theorem chain_link (h : l.IsChain s.Follows) (hnd : l.Nodup) (hx : x ∈ l → x ∈ l.getLast?)
    (hy : y ∈ l → y ∈ l.head?) : l.IsChain (s.link x y).Follows := by
  refine chain_congr h (fun z hz => Function.update_of_ne ?_ _ _)
    fun z hz => Function.update_of_ne ?_ _ _
  · rintro rfl
    have hlast := hx (mem_of_mem_dropLast hz)
    rw [← dropLast_append_getLast? z hlast, nodup_append] at hnd
    exact hnd.2.2 z hz z (by simp) rfl
  · rintro rfl
    have hhead := hy (mem_of_mem_tail hz)
    rw [← cons_head?_tail hhead, nodup_cons] at hnd
    exact hnd.1 hz

/-! ## Cutting and splicing -/

/-- **Cut.** Linking the nodes around a range of a ring leaves the rest as a ring and the range as a
chain. -/
theorem Ring.cut (h : Ring s (P ++ R)) (hx : x ∈ R.head?) (hy : y ∈ P.head?) :
    Ring (s.link (s.prev x) y) P ∧ R.IsChain (s.link (s.prev x) y).Follows := by
  have hp := h.prev_mem (ne_nil_of_mem (mem_of_head? hy)) hx
  obtain ⟨hnd, hchain, -⟩ := ring_iff.1 h
  obtain ⟨hP, hR, hdisj⟩ := nodup_append.1 hnd
  obtain ⟨hchainP, hchainR, -⟩ := isChain_append.1 hchain
  refine ⟨ring_iff.2 ⟨hP, chain_link hchainP hP (fun _ => hp) fun _ => hy, fun x' hx' y' hy' => ?_⟩,
    chain_link hchainR hR (fun hm => ?_) fun hm => ?_⟩
  · obtain rfl := Option.mem_unique hp hx'
    obtain rfl := Option.mem_unique hy hy'
    exact follows_link
  · exact absurd rfl (hdisj _ (mem_of_getLast? hp) _ hm)
  · exact absurd rfl (hdisj y (mem_of_head? hy) y hm)

/-- **Splice.** A chain is put before a node of a ring. -/
theorem Ring.splice (h : Ring s (i :: l)) (hR : R.IsChain s.Follows) (hnd : (i :: l ++ R).Nodup)
    (hx : x ∈ R.head?) (hy : y ∈ R.getLast?) :
    Ring ((s.link (s.prev i) x).link y i) (i :: l ++ R) := by
  obtain ⟨hndl, hchain, hclose⟩ := ring_iff.1 h
  obtain ⟨-, hndR, hdisj⟩ := nodup_append.1 hnd
  obtain ⟨p, hp⟩ : ∃ p, p ∈ (i :: l).getLast? := ⟨_, getLast?_eq_some_getLast (cons_ne_nil i l)⟩
  obtain rfl := (hclose p hp i rfl).2
  have hxR := mem_of_head? hx
  have hyR := mem_of_getLast? hy
  have hpl := mem_of_getLast? hp
  refine ring_iff.2 ⟨hnd, isChain_append.2 ⟨?_, ?_, fun p' hp' x' hx' => ?_⟩,
    fun y' hy' i' hi' => ?_⟩
  · refine chain_link (chain_link hchain hndl (fun _ => hp) fun hm => ?_) hndl (fun hm => ?_)
      fun _ => rfl
    · exact absurd rfl (hdisj x hm x hxR)
    · exact absurd rfl (hdisj y hm y hyR)
  · refine chain_link (chain_link hR hndR (fun hm => ?_) fun _ => hx) hndR (fun _ => hy)
      fun hm => ?_
    · exact absurd rfl (hdisj _ hpl _ hm)
    · exact absurd rfl (hdisj i mem_cons_self i hm)
  · obtain rfl := Option.mem_unique hp hp'
    obtain rfl := Option.mem_unique hx hx'
    exact follows_link.link (hdisj _ hpl y hyR) (hdisj i mem_cons_self x hxR).symm
  · rw [getLast?_append_of_ne_nil _ (ne_nil_of_mem hyR)] at hy'
    obtain rfl := Option.mem_unique hy hy'
    obtain rfl : i = i' := by simpa using hi'
    exact follows_link

end Links
