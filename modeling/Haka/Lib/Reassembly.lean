import Mathlib.Tactic
import Mathlib.Data.List.TakeWhile

/-!
# Putting intervals in order

A reassembly window takes half-open intervals of positions in any order. It hands over the ones
that start where the last handed one ended, and keeps the ones that came too early in a queue
sorted by their starts. An interval that starts before the last position, or that reaches over
the start of the next queued one, is ignored.

Whatever comes in, what is handed over is adjacent. What comes in is handed over or kept only if
the intervals do not overlap the queue (`Window.Fits`): under that condition nothing that could be
handed over stays in the queue, and every position covered by adjacent intervals is reached.
-/

namespace Reassembly

open List

variable {α β : Type*}

/-- The elements follow one another from `a` to `b`: each starts where the one before it stops. -/
def Adjacent (start stop : α → β) : β → List α → β → Prop
  | a, [], b => a = b
  | a, x :: l, b => start x = a ∧ Adjacent start stop (stop x) l b

section Adjacent

variable {start stop : α → β} {a b c : β} {x : α} {l l' : List α}

theorem Adjacent.append (h : Adjacent start stop a l b) (h' : Adjacent start stop b l' c) :
    Adjacent start stop a (l ++ l') c := by
  induction l generalizing a with
  | nil =>
    obtain rfl : a = b := h
    exact h'
  | cons x l ih => exact ⟨h.1, ih h.2⟩

theorem Adjacent.snoc (h : Adjacent start stop a l b) (hx : start x = b) :
    Adjacent start stop a (l ++ [x]) (stop x) :=
  h.append ⟨hx, rfl⟩

theorem adjacent_map {γ : Type*} {f : γ → α} {l : List γ} :
    Adjacent start stop a (l.map f) b ↔ Adjacent (start ∘ f) (stop ∘ f) a l b := by
  induction l generalizing a with
  | nil => rfl
  | cons x l ih => exact and_congr_right fun _ => ih

end Adjacent

/-- The elements from `a` to `b` of a list. -/
def slice (D : List α) (a b : ℕ) : List α := (D.take b).drop a

section Slice

variable {D : List α} {a b c : ℕ}

theorem slice_append_drop (hab : a ≤ b) : slice D a b ++ D.drop b = D.drop a := by
  have hdrop : D.drop b = (D.drop a).drop (b - a) := by
    rw [drop_drop, Nat.add_sub_cancel' hab]
  unfold slice
  rw [drop_take, hdrop, take_append_drop]

theorem slice_append (hab : a ≤ b) (hbc : b ≤ c) : slice D a b ++ slice D b c = slice D a c := by
  have hb : D.take b = (D.take c).take b := by rw [take_take, Nat.min_eq_left hbc]
  have hslice : slice (D.take c) a b ++ (D.take c).drop b = (D.take c).drop a :=
    slice_append_drop hab
  unfold slice at hslice ⊢
  rw [hb]
  exact hslice

@[simp] theorem slice_zero : slice D 0 b = D.take b := rfl

end Slice

/-- An interval `[start, stop)`. -/
structure Seg where
  start : ℕ
  stop : ℕ
  deriving DecidableEq

/-- The position up to which intervals were handed over, and the intervals that came too early. -/
structure Window where
  last : ℕ
  queued : List Seg

namespace Window

/-- Hands over queued intervals as long as the first one starts at the last position. -/
def drain (last : ℕ) : List Seg → Window
  | [] => ⟨last, []⟩
  | q :: queued => if q.start ≠ last then ⟨last, q :: queued⟩ else drain q.stop queued

/-- Puts an interval into the queue, before the first one that starts after it, unless it reaches
over that start. -/
def insert (g : Seg) (queued : List Seg) : Option (List Seg) :=
  match queued.dropWhile fun q => ¬g.start < q.start with
  | [] => some (queued.takeWhile (fun q => ¬g.start < q.start) ++ [g])
  | q :: rest =>
    if q.start < g.stop then none
    else some (queued.takeWhile (fun q => ¬g.start < q.start) ++ g :: q :: rest)

def push (w : Window) (g : Seg) : Window :=
  if w.last = g.start then drain g.stop w.queued
  else if w.last < g.start then ⟨w.last, (insert g w.queued).getD w.queued⟩
  else w

/-- The interval lies inside of what was handed over or does not overlap it, nor a queued interval;
only empty ones may be queued at its start. -/
def Fits (w : Window) (g : Seg) : Prop :=
  (g.start < w.last → g.stop ≤ w.last) ∧
  (w.last ≤ g.start → ∀ q ∈ w.queued,
    (q.start ≤ g.start → q.stop ≤ g.start) ∧ (g.start < q.start → g.stop ≤ q.start))

instance (w : Window) (g : Seg) : Decidable (w.Fits g) :=
  inferInstanceAs (Decidable (_ ∧ _))

/-- The queue is sorted and disjoint and lies after the last position, and every interval of `seen`
was handed over or is in the queue. -/
structure Complete (w : Window) (seen : List Seg) : Prop where
  after : ∀ q ∈ w.queued, w.last < q.start
  nonneg : ∀ q ∈ w.queued, q.start ≤ q.stop
  sorted : w.queued.Pairwise fun p q => p.stop ≤ q.start
  seen : ∀ g ∈ seen, g.stop ≤ w.last ∨ g ∈ w.queued

theorem complete_init : Complete ⟨0, []⟩ [] := ⟨by simp, by simp, by simp, by simp⟩

variable {queued seen : List Seg}

/-- Handing over from the queue: the last position grows up to before the rest of the queue. -/
theorem drain_complete {last : ℕ} (hle : ∀ q ∈ queued, last ≤ q.start)
    (hn : ∀ q ∈ queued, q.start ≤ q.stop) (hs : queued.Pairwise fun p q => p.stop ≤ q.start)
    (hseen : ∀ g ∈ seen, g.stop ≤ last ∨ g ∈ queued) :
    last ≤ (drain last queued).last ∧ Complete (drain last queued) seen := by
  induction queued generalizing last with
  | nil => exact ⟨le_refl _, by simp [drain], by simp [drain], by simp [drain], hseen⟩
  | cons q queued ih =>
    obtain ⟨hq, hs⟩ := pairwise_cons.1 hs
    have hq0 := hle q (by simp)
    have hqn := hn q (by simp)
    rw [drain]
    split_ifs with hne
    · refine ⟨le_refl _, fun p hp => ?_, hn, pairwise_cons.2 ⟨hq, hs⟩, hseen⟩
      rcases mem_cons.1 hp with rfl | hp
      · show last < p.start
        omega
      · have := hq p hp
        show last < p.start
        omega
    · have hrec := ih hq (fun p hp => hn p (by simp [hp])) hs fun g hg => ?_
      · exact ⟨by omega, hrec.2⟩
      · rcases hseen g hg with h | h
        · left
          omega
        · rcases mem_cons.1 h with rfl | h
          · exact .inl (le_refl _)
          · exact .inr h

variable {g : Seg}

theorem start_lt_of_mem_dropWhile
    (hn : ∀ q ∈ queued, q.start ≤ q.stop) (hs : queued.Pairwise fun p q => p.stop ≤ q.start) :
    ∀ q ∈ queued.dropWhile (fun q => ¬g.start < q.start), g.start < q.start := by
  induction queued with
  | nil => simp
  | cons p queued ih =>
    obtain ⟨hp, hs⟩ := pairwise_cons.1 hs
    by_cases hlt : g.start < p.start
    · rw [dropWhile_cons_of_neg (by simpa using hlt)]
      intro q hq
      rcases mem_cons.1 hq with rfl | hq
      · exact hlt
      · have := hp q hq
        have := hn p (by simp)
        omega
    · rw [dropWhile_cons_of_pos (by simpa using hlt)]
      exact ih (fun q hq => hn q (by simp [hq])) hs

theorem insert_of_fits
    (hfit : ∀ q ∈ queued, g.start < q.start → g.stop ≤ q.start) (hn : ∀ q ∈ queued, q.start ≤ q.stop)
    (hs : queued.Pairwise fun p q => p.stop ≤ q.start) :
    insert g queued = some (queued.takeWhile (fun q => ¬g.start < q.start) ++
      g :: queued.dropWhile (fun q => ¬g.start < q.start)) := by
  have hafter := start_lt_of_mem_dropWhile (g := g) hn hs
  unfold insert
  cases hd : queued.dropWhile (fun q => ¬g.start < q.start) with
  | nil => rfl
  | cons q rest =>
    have hmem : q ∈ queued := (dropWhile_sublist _).subset (hd ▸ mem_cons_self ..)
    have := hfit q hmem (hafter q (hd ▸ mem_cons_self ..))
    exact if_neg (by omega)

variable {w : Window}

/-- **One interval.** A window stays complete when it takes an interval that fits. -/
theorem push_complete (hw : w.Complete seen)
    (hfit : w.Fits g) (hg : g.start ≤ g.stop) : (w.push g).Complete (seen ++ [g]) := by
  obtain ⟨last, queued⟩ := w
  obtain ⟨hinside, hfit⟩ := hfit
  unfold push
  dsimp only at hinside hfit ⊢
  by_cases heq : last = g.start
  · rw [if_pos heq]
    have hfit := hfit heq.le
    refine (drain_complete (fun q hq => ?_) hw.nonneg hw.sorted fun x hx => ?_).2
    · have := hw.after q hq
      exact (hfit q hq).2 (by simpa [← heq] using this)
    · rcases mem_append.1 hx with hx | hx
      · rcases hw.seen x hx with h | h
        · left
          dsimp only at h
          omega
        · exact .inr h
      · obtain rfl : x = g := by simpa using hx
        exact .inl (le_refl _)
  rw [if_neg heq]
  by_cases hlt : last < g.start
  swap
  · rw [if_neg hlt]
    refine ⟨hw.after, hw.nonneg, hw.sorted, fun x hx => ?_⟩
    rcases mem_append.1 hx with hx | hx
    · exact hw.seen x hx
    · obtain rfl : x = g := by simpa using hx
      exact .inl (hinside (by omega))
  have hfit := hfit hlt.le
  rw [if_pos hlt, insert_of_fits (fun q hq => (hfit q hq).2) hw.nonneg hw.sorted, Option.getD_some]
  have hsplit : queued.takeWhile (fun q => ¬g.start < q.start) ++
      queued.dropWhile (fun q => ¬g.start < q.start) = queued := takeWhile_append_dropWhile
  have hafter := start_lt_of_mem_dropWhile (g := g) hw.nonneg hw.sorted
  have hbefore : ∀ q ∈ queued.takeWhile (fun q => ¬g.start < q.start), q.start ≤ g.start := by
    intro q hq
    have := mem_takeWhile_imp hq
    simpa using this
  have hsorted := hw.sorted
  have hmem : ∀ q, q ∈ queued ↔ q ∈ queued.takeWhile (fun q => ¬g.start < q.start) ∨
      q ∈ queued.dropWhile (fun q => ¬g.start < q.start) := by
    intro q
    rw [← mem_append, hsplit]
  have hall : ∀ x, x ∈ queued.takeWhile (fun q => ¬g.start < q.start) ++
      g :: queued.dropWhile (fun q => ¬g.start < q.start) ↔ x = g ∨ x ∈ queued := by
    intro x
    rw [hmem x]
    simp only [mem_append, mem_cons]
    tauto
  refine ⟨fun q hq => ?_, fun q hq => ?_, ?_, fun x hx => ?_⟩
  · rcases (hall q).1 hq with rfl | hq
    · exact hlt
    · exact hw.after q hq
  · rcases (hall q).1 hq with rfl | hq
    · exact hg
    · exact hw.nonneg q hq
  · rw [← hsplit, pairwise_append] at hsorted
    obtain ⟨h1, h2, h3⟩ := hsorted
    rw [pairwise_append, pairwise_cons]
    refine ⟨h1, ⟨fun q hq => ?_, h2⟩, fun p hp q hq => ?_⟩
    · exact (hfit q ((hmem q).2 (.inr hq))).2 (hafter q hq)
    · rcases mem_cons.1 hq with rfl | hq
      · exact (hfit p ((hmem p).2 (.inl hp))).1 (hbefore p hp)
      · exact h3 p hp q hq
  · rcases mem_append.1 hx with hx | hx
    · rcases hw.seen x hx with h | h
      · exact .inl h
      · exact .inr ((hall x).2 (.inr h))
    · obtain rfl : x = g := by simpa using hx
      exact .inr ((hall x).2 (.inl rfl))

/-- **Coverage.** Adjacent intervals that were taken lie before the last position. -/
theorem Complete.covers {chain : List Seg} {a n : ℕ} (hw : w.Complete seen)
    (hc : ∀ g ∈ chain, g ∈ seen) (hadj : Adjacent Seg.start Seg.stop a chain n) (ha : a ≤ w.last) :
    n ≤ w.last := by
  induction chain generalizing a with
  | nil =>
    obtain rfl : a = n := hadj
    exact ha
  | cons g chain ih =>
    obtain ⟨hstart, hrest⟩ := hadj
    refine ih (fun x hx => hc x (by simp [hx])) hrest ?_
    rcases hw.seen g (hc g (by simp)) with h | h
    · exact h
    · have := hw.after g h
      omega

end Window

end Reassembly
