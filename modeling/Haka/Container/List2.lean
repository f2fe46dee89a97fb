import Haka.Lib.Links

/-!
# Intrusive lists

`container/list2.c`. The nodes are addresses, 0 is `NULL`. A list is the ring of its end node, which
is its head, and its elements. The flags of the debug build are left out.
-/

namespace Haka

open List Links

/-- `list2_insert`: the links, and the iterator that is returned. -/
def list2Insert (s : Links ℕ) (iter elem : ℕ) : Links ℕ × ℕ :=
  let s := s.setNext elem iter
  let s := s.setPrev elem (s.prev iter)
  let s := s.setNext (s.prev iter) elem
  (s.setPrev iter elem, elem)

/-- `list2_insert_list`. The assignments come in pairs that link two nodes. -/
def list2InsertList (s : Links ℕ) (iter begin «end» : ℕ) : Links ℕ × ℕ :=
  if begin = «end» then (s, iter)
  else
    let last := s.prev «end»
    let s := s.link (s.prev begin) «end»
    let s := s.link (s.prev iter) begin
    (s.link last iter, iter)

/-- `list2_erase`. -/
def list2Erase (s : Links ℕ) (list : ℕ) : Links ℕ × ℕ :=
  let next := s.next list
  let s := s.setPrev (s.next list) (s.prev list)
  let s := s.setNext (s.prev list) (s.next list)
  ((s.setPrev list 0).setNext list 0, next)

def list2Empty (s : Links ℕ) (list : ℕ) : Bool := s.next list = list

/-- `list2_swap`; a list is the address of its end node. -/
def list2Swap (s : Links ℕ) (a b : ℕ) : Links ℕ :=
  let aEmpty := list2Empty s a
  let bEmpty := list2Empty s b
  let s := if aEmpty then s else (s.setPrev (s.next a) b).setNext (s.prev a) b
  let s := if bEmpty then s else (s.setPrev (s.next b) a).setNext (s.prev b) a
  let tmp := s
  let s := if aEmpty then (s.setPrev b b).setNext b b
    else (s.setNext b (s.next a)).setPrev b (s.prev a)
  if bEmpty then (s.setPrev a a).setNext a a
  else (s.setNext a (tmp.next b)).setPrev a (tmp.prev b)

/-! ## Moving a range -/

variable {s : Links ℕ} {a b i x y elem : ℕ} {l m A B C D P Q R : List ℕ}

theorem list2InsertList_of_ne (h : Ring s (P ++ R)) (hx : x ∈ R.head?) (hy : y ∈ P.head?) :
    list2InsertList s i x y = (((s.link (s.prev x) y).link ((s.link (s.prev x) y).prev i) x).link
      (s.prev y) i, i) := by
  refine if_neg ?_
  rintro rfl
  exact (nodup_append.1 h.nodup).2.2 x (mem_of_head? hy) x (mem_of_head? hx) rfl

/-- A range put before another node of its ring. -/
theorem list2InsertList_same (h : Ring s (P ++ i :: Q ++ R)) (hx : x ∈ R.head?)
    (hy : y ∈ (P ++ i :: Q).head?) : Ring (list2InsertList s i x y).1 (P ++ R ++ i :: Q) := by
  have hlast := h.rotate.prev_mem (ne_nil_of_mem (mem_of_head? hx)) hy
  obtain ⟨hring, hchain⟩ := h.cut hx hy
  have hnd : (i :: (Q ++ P) ++ R).Nodup :=
    (show (P ++ i :: Q).Perm (i :: Q ++ P) from perm_append_comm).append_right R
      |>.nodup_iff.1 h.nodup
  rw [list2InsertList_of_ne h hx hy]
  have hsplice := Ring.splice (l := Q ++ P) hring.rotate hchain hnd hx hlast
  rw [cons_append, append_assoc, ← cons_append] at hsplice
  exact hsplice.rotate

/-- A range put before a node of another ring. -/
theorem list2InsertList_other (h : Ring s (P ++ R)) (h' : Ring s (i :: Q))
    (hdisj : Disjoint (P ++ R) (i :: Q)) (hx : x ∈ R.head?) (hy : y ∈ P.head?) :
    Ring (list2InsertList s i x y).1 P ∧ Ring (list2InsertList s i x y).1 (i :: Q ++ R) := by
  have hlast := h.rotate.prev_mem (ne_nil_of_mem (mem_of_head? hx)) hy
  have hp := h.prev_mem (ne_nil_of_mem (mem_of_head? hy)) hx
  obtain ⟨hdisjP, hdisjR⟩ := disjoint_append_left.1 hdisj
  obtain ⟨-, hndR, hPR⟩ := nodup_append'.1 h.nodup
  obtain ⟨hring, hchain⟩ := h.cut hx hy
  have hring' := h'.link (hdisjP (mem_of_getLast? hp)) (hdisjP (mem_of_head? hy))
  have hprev := (hring'.closed mem_cons_self).2.1
  rw [list2InsertList_of_ne h hx hy]
  refine ⟨Ring.link (hring.link (fun hm => hdisjP hm hprev) fun hm => hPR hm (mem_of_head? hx))
    (fun hm => hPR hm (mem_of_getLast? hlast)) fun hm => hdisjP hm mem_cons_self,
    hring'.splice hchain ?_ hx hlast⟩
  exact h'.nodup.append hndR hdisjR.symm

theorem list2InsertList_frame (h : Ring s P) (hQ : Ring s Q) (hdisj : Disjoint P Q) (hi : i ∈ P)
    (hx : x ∈ P) (hy : y ∈ P) : Ring (list2InsertList s i x y).1 Q := by
  obtain ⟨-, hpx, -⟩ := h.closed hx
  obtain ⟨-, hpy, -⟩ := h.closed hy
  obtain ⟨-, hpi, -⟩ := h.closed hi
  have hp : (s.link (s.prev x) y).prev i ∈ P := by
    simp only [Links.link, setNext, setPrev, Function.update_apply]
    split <;> assumption
  unfold list2InsertList
  split
  · exact hQ
  · exact Ring.link (Ring.link (hQ.link (hdisj hpx) (hdisj hy)) (hdisj hp) (hdisj hx)) (hdisj hpy)
      (hdisj hi)

/-! ## One element -/

theorem list2Insert_eq (h : Ring s P) (hi : i ∈ P) (helem : elem ∉ P) :
    (list2Insert s i elem).1 = (s.link (s.prev i) elem).link elem i := by
  have hne : i ≠ elem := ne_of_mem_of_not_mem hi helem
  have hp : s.prev i ≠ elem := ne_of_mem_of_not_mem (h.closed hi).2.1 helem
  simp [list2Insert, Links.link, setNext, setPrev, hne, Function.update_comm hp]

theorem list2Insert_ring (h : Ring s (i :: Q)) (helem : elem ∉ i :: Q) :
    Ring (list2Insert s i elem).1 (i :: Q ++ [elem]) := by
  rw [list2Insert_eq h mem_cons_self helem]
  refine h.splice (.singleton elem) (h.nodup.append (nodup_singleton elem) ?_) rfl rfl
  simpa using helem

theorem list2Erase_eq :
    (list2Erase s x).1 = ((s.link (s.prev x) (s.next x)).setPrev x 0).setNext x 0 := by
  simp [list2Erase, Links.link, setNext, setPrev, Function.update_apply]

theorem Ring.erased (h : Ring (s.link (s.prev x) (s.next x)) Q) (hx : x ∉ Q) :
    Ring (list2Erase s x).1 Q := by
  rw [list2Erase_eq]
  exact h.congr (fun _ hz => Function.update_of_ne (ne_of_mem_of_not_mem hz hx) _ _)
    fun _ hz => Function.update_of_ne (ne_of_mem_of_not_mem hz hx) _ _

/-! ## Exchanging two lists -/

theorem list2Swap_apply (hab : a ≠ b) (ha : s.prev (s.next a) = a ∧ s.next (s.prev a) = a)
    (hb : s.prev (s.next b) = b ∧ s.next (s.prev b) = b)
    (hx : s.prev (s.next x) = x ∧ s.next (s.prev x) = x) (hna : s.next a ≠ b)
    (hnb : s.next b ≠ a) :
    (list2Swap s a b).next (Equiv.swap a b x) = Equiv.swap a b (s.next x) ∧
      (list2Swap s a b).prev (Equiv.swap a b x) = Equiv.swap a b (s.prev x) := by
  by_cases hea : s.next a = a <;> by_cases heb : s.next b = b <;>
    obtain rfl | hxa := eq_or_ne x a <;> (try obtain rfl | hxb := eq_or_ne x b) <;>
    simp [list2Swap, list2Empty, setNext, setPrev, Equiv.swap_apply_def, Function.update_apply,
      *] <;> grind

/-! ## Pairs of lists -/

/-- The two lists of the end nodes `a` and `b`, with their elements. -/
structure Lists (s : Links ℕ) (a : ℕ) (l : List ℕ) (b : ℕ) (m : List ℕ) : Prop where
  first : Ring s (a :: l)
  second : Ring s (b :: m)
  disjoint : Disjoint (a :: l) (b :: m)

/-- The iterator before the last elements `l` of a list. -/
def position (l : List ℕ) (a : ℕ) : ℕ := l.headD a

theorem position_mem : position B a ∈ (B ++ a :: A).head? := by
  cases B <;> rfl

@[simp] theorem position_cons : position (x :: l) a = x := rfl

theorem cons_position : ∃ Q, B ++ a :: A = position B a :: Q := by
  cases B <;> exact ⟨_, rfl⟩

theorem rotated_behind : a :: (A ++ R ++ B) ~r B ++ a :: A ++ R := by
  simpa using (isRotated_append : a :: A ++ R ++ B ~r B ++ (a :: A ++ R))

theorem Lists.move (h : Lists s a (A ++ R ++ B) b (C ++ D)) :
    Lists (list2InsertList s (position D b) (position (R ++ B) a) (position B a)).1
      a (A ++ B) b (C ++ R ++ D) := by
  cases R with
  | nil => simpa [list2InsertList] using h
  | cons x R =>
    obtain ⟨hfirst, hsecond, hdisj⟩ := h
    obtain ⟨Q, hQ⟩ := cons_position (A := C) (B := D) (a := b)
    have hnd := hfirst.nodup
    have hdisj' : Disjoint (B ++ a :: A ++ x :: R) (position D b :: Q) := by
      rw [← hQ, ← rotated_behind.perm.disjoint_left]
      exact (isRotated_append (l := b :: C)).perm.disjoint_right.1 hdisj
    obtain ⟨h1, h2⟩ := list2InsertList_other (hfirst.isRotated rotated_behind)
      (hQ ▸ hsecond.rotate (P := b :: C)) hdisj' rfl position_mem
    rw [← hQ, append_assoc] at h2
    refine ⟨h1.rotate, by simpa using h2.rotate, ?_⟩
    simp [nodup_append'] at hdisj hnd ⊢
    tauto

theorem Lists.shift (h : Lists s a (A ++ R ++ B) b m) (hi : B ++ a :: A = P ++ i :: Q)
    (hl : P ++ R ++ i :: Q ~r a :: l) :
    Lists (list2InsertList s i (position (R ++ B) a) (position B a)).1 a l b m := by
  obtain ⟨hfirst, hsecond, hdisj⟩ := h
  have hring := hfirst.isRotated rotated_behind
  have hdisj' := rotated_behind.perm.disjoint_left.1 hdisj
  rw [hi] at hring hdisj'
  have hdisj'' : Disjoint (a :: l) (b :: m) := by
    rw [← hl.perm.disjoint_left, append_assoc]
    refine ((perm_append_comm.append_left P).disjoint_left).1 ?_
    rwa [← append_assoc]
  cases R with
  | nil =>
    have hlist := hring.isRotated (by simpa using hl)
    simpa [list2InsertList] using Lists.mk hlist hsecond hdisj''
  | cons x R =>
    have hy : position B a ∈ (P ++ i :: Q).head? := hi ▸ position_mem
    refine ⟨(list2InsertList_same hring rfl hy).isRotated hl, ?_, hdisj''⟩
    exact list2InsertList_frame hring hsecond hdisj' (by simp) (by simp)
      (mem_append_left _ (mem_of_head? hy))

theorem Lists.insert (h : Lists s a (A ++ B) b m) (ha : elem ∉ a :: (A ++ B)) (hb : elem ∉ b :: m) :
    Lists (list2Insert s (position B a) elem).1 a (A ++ elem :: B) b m := by
  obtain ⟨hfirst, hsecond, hdisj⟩ := h
  obtain ⟨Q, hQ⟩ := cons_position (A := A) (B := B) (a := a)
  have hring : Ring s (position B a :: Q) := hQ ▸ hfirst.rotate (P := a :: A)
  have hperm : (a :: (A ++ B)).Perm (position B a :: Q) :=
    hQ ▸ (isRotated_append (l := a :: A)).perm
  have ha' : elem ∉ position B a :: Q := fun hm => ha (hperm.mem_iff.2 hm)
  have hdisj' := hperm.disjoint_left.1 hdisj
  refine ⟨?_, ?_, ?_⟩
  · have h1 := list2Insert_ring hring ha'
    rw [← hQ, append_assoc] at h1
    simpa using h1.rotate
  · rw [list2Insert_eq hring mem_cons_self ha']
    have hp := hdisj' (hring.closed mem_cons_self).2.1
    exact Ring.link (hsecond.link hp hb) hb (hdisj' mem_cons_self)
  · simp only [disjoint_cons_left, disjoint_append_left] at hdisj ⊢
    tauto

theorem Lists.erase (h : Lists s a (A ++ x :: B) b m) :
    Lists (list2Erase s x).1 a (A ++ B) b m := by
  obtain ⟨hfirst, hsecond, hdisj⟩ := h
  have hring : Ring s (B ++ a :: A ++ [x]) :=
    Ring.isRotated (by simpa using hfirst) rotated_behind
  have hx : x ∉ B ++ a :: A := fun hm => (nodup_append.1 hring.nodup).2.2 x hm x (by simp) rfl
  obtain ⟨hnext, hprev, -⟩ := hfirst.closed (x := x) (by simp)
  have hend := position_mem (A := A) (B := B) (a := a)
  have hx' : s.prev (position B a) = x := by
    simpa [eq_comm] using hring.rotate.prev_mem (by simp) hend
  have heq : s.next x = position B a :=
    hx' ▸ (hring.closed (mem_append_left _ (mem_of_head? hend))).2.2.2
  have h1 := Ring.erased (hring.cut rfl (heq ▸ hend)).1 hx
  refine ⟨h1.rotate, Ring.erased (hsecond.link (hdisj hprev) (hdisj hnext)) (hdisj (by simp)), ?_⟩
  simp at hdisj ⊢
  tauto

theorem Lists.swap (h : Lists s a l b m) : Lists (list2Swap s a b) a m b l := by
  obtain ⟨hfirst, hsecond, hdisj⟩ := h
  obtain ⟨hnexta, -, ha⟩ := hfirst.closed mem_cons_self
  obtain ⟨hnextb, -, hb⟩ := hsecond.closed mem_cons_self
  have hna : s.next a ≠ b := fun he => hdisj hnexta (he ▸ mem_cons_self)
  have hnb : s.next b ≠ a := fun he => hdisj (he ▸ mem_cons_self) hnextb
  have hab : a ≠ b := fun he => hdisj mem_cons_self (he ▸ mem_cons_self)
  have hmap : ∀ l, Ring s l → Ring (list2Swap s a b) (l.map (Equiv.swap a b)) := fun l h =>
    h.map (Equiv.injective _)
      (fun x hx => (list2Swap_apply hab ha hb (h.closed hx).2.2 hna hnb).1)
      fun x hx => (list2Swap_apply hab ha hb (h.closed hx).2.2 hna hnb).2
  have hl : ∀ l : List ℕ, a ∉ l → b ∉ l → l.map (Equiv.swap a b) = l := fun l ha hb =>
    (map_congr_left fun x hx => Equiv.swap_apply_of_ne_of_ne (ne_of_mem_of_not_mem hx ha)
      (ne_of_mem_of_not_mem hx hb)).trans (map_id l)
  have hnda := (nodup_cons.1 hfirst.nodup).1
  have hndb := (nodup_cons.1 hsecond.nodup).1
  simp at hdisj
  refine ⟨?_, ?_, ?_⟩
  · simpa [hl m (by tauto) hndb] using hmap _ hsecond
  · simpa [hl l hnda (by tauto)] using hmap _ hfirst
  · simp
    tauto

/-- **Splicing.** The sequences of two lists after a range of the first is put before a position of
the second, before an element in front of it, or before its end or a position behind; after an
element is inserted or erased; and after the lists are exchanged. -/
theorem list2_sequences (h : Lists s a l b m) :
    (∀ A R B C D, l = A ++ R ++ B → m = C ++ D →
      Lists (list2InsertList s (position D b) (position (R ++ B) a) (position B a)).1
        a (A ++ B) b (C ++ R ++ D)) ∧
    (∀ A i A' R B, l = A ++ i :: A' ++ R ++ B →
      Lists (list2InsertList s i (position (R ++ B) a) (position B a)).1
        a (A ++ R ++ i :: A' ++ B) b m) ∧
    (∀ A R B B', l = A ++ R ++ (B ++ B') →
      Lists (list2InsertList s (position B' a) (position (R ++ (B ++ B')) a)
        (position (B ++ B') a)).1 a (A ++ B ++ R ++ B') b m) ∧
    (∀ A B elem, l = A ++ B → elem ∉ a :: l → elem ∉ b :: m →
      Lists (list2Insert s (position B a) elem).1 a (A ++ elem :: B) b m) ∧
    (∀ A x B, l = A ++ x :: B → Lists (list2Erase s x).1 a (A ++ B) b m) ∧
    Lists (list2Swap s a b) a m b l := by
  refine ⟨?_, ?_, ?_, ?_, ?_, h.swap⟩
  · rintro A R B C D rfl rfl
    exact h.move
  · rintro A i A' R B rfl
    refine h.shift (P := B ++ a :: A) (Q := A') (by simp) ?_
    simpa using (isRotated_append : B ++ (a :: A ++ R ++ i :: A') ~r _)
  · rintro A R B B' rfl
    obtain ⟨Q, hQ⟩ := cons_position (A := A) (B := B') (a := a)
    refine h.shift (P := B) (Q := Q) (by simp [hQ]) ?_
    rw [← hQ]
    simpa using (isRotated_append : B ++ R ++ B' ++ a :: A ~r _)
  · rintro A B elem rfl ha hb
    exact h.insert ha hb
  · rintro A x B rfl
    exact h.erase

/-- The lists `2, 3, 4` and `6, 7`, with the ends `1` and `5`. -/
def twoRings : Links ℕ where
  next x := [0, 2, 3, 4, 1, 6, 7, 5].getD x 0
  prev x := [0, 4, 1, 2, 3, 7, 5, 6].getD x 0

/-- The middle of the first list is put between the elements of the second. -/
theorem list2_sequences_moved : Lists (list2InsertList twoRings 7 3 4).1 1 [2, 4] 5 [6, 3, 7] := by
  have hfirst : Ring twoRings [1, 2, 3, 4] := ⟨by decide, by simp [Follows, twoRings]⟩
  have hsecond : Ring twoRings [5, 6, 7] := ⟨by decide, by simp [Follows, twoRings]⟩
  exact (list2_sequences ⟨hfirst, hsecond, by simp⟩).1 [2] [3] [4] [6] [7] rfl rfl

end Haka
