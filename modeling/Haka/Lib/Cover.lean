import Mathlib.Tactic
import Mathlib.Data.List.TakeWhile

/-!
# Covering a range by intervals

Intervals are elements with a start and a stop inside `[0, n)`. In a staircase every interval but
the last stops before `n`, starts do not decrease, and an interval that overlaps the one before it
has the same stop, unless it is one that may be cut at its front. A loop that remembers only the
stop of the previous interval finds every gap of a staircase (`noGap_of_covered`).
-/

namespace Cover

variable {α : Type*} {n : ℕ} {start stop : α → ℕ} {cut : α → Prop} {a b p : α} {l : List α}

/-- The interval `b` may stand behind `a`, unless `a` stops at `n`. -/
def Meets (n : ℕ) (start stop : α → ℕ) (cut : α → Prop) (a b : α) : Prop :=
  stop a = n ∨ stop a ≤ start b ∨ stop a = stop b ∨ cut b

/-- Whichever of the two intervals starts first, the other one may stand behind it. -/
def Compatible (n : ℕ) (start stop : α → ℕ) (cut : α → Prop) (a b : α) : Prop :=
  (start a ≤ start b → Meets n start stop cut a b) ∧
  (start b ≤ start a → Meets n start stop cut b a)

instance [DecidablePred cut] : Decidable (Meets n start stop cut a b) :=
  inferInstanceAs (Decidable (_ ∨ _ ∨ _ ∨ _))

instance [DecidablePred cut] : Decidable (Compatible n start stop cut a b) :=
  inferInstanceAs (Decidable ((_ → _) ∧ (_ → _)))

/-- The interval `b` stands behind `a` in a staircase. -/
structure Follows (n : ℕ) (start stop : α → ℕ) (cut : α → Prop) (a b : α) : Prop where
  sorted : start a ≤ start b
  isOpen : stop a < n
  meets : Meets n start stop cut a b

/-! ## Insertion -/

/-- In a sorted list, what is left behind the elements that start before `p` does not. -/
theorem start_le_of_mem_dropWhile (hl : l.Pairwise fun a b => start a ≤ start b)
    (hb : b ∈ l.dropWhile fun a => decide (start a < start p)) : start p ≤ start b := by
  induction l with
  | nil => simp at hb
  | cons x l ih =>
    obtain ⟨hx, hl⟩ := List.pairwise_cons.1 hl
    by_cases hlt : start x < start p
    · rw [List.dropWhile_cons_of_pos (by simpa using hlt)] at hb
      exact ih hl hb
    · rw [List.dropWhile_cons_of_neg (by simpa using hlt)] at hb
      rcases List.mem_cons.1 hb with rfl | hb
      · omega
      · have := hx b hb
        omega

theorem pairwise_insert {R : α → α → Prop} {x y : List α} (hl : (x ++ y).Pairwise R)
    (hx : ∀ a ∈ x, R a p) (hy : ∀ b ∈ y, R p b) : (x ++ p :: y).Pairwise R := by
  obtain ⟨h1, h2, h3⟩ := List.pairwise_append.1 hl
  refine List.pairwise_append.2 ⟨h1, List.pairwise_cons.2 ⟨hy, h2⟩, fun a ha b hb => ?_⟩
  rcases List.mem_cons.1 hb with rfl | hb
  · exact hx a ha
  · exact h3 a ha b hb

/-! ## Gaps -/

def Covered (start stop : α → ℕ) (l : List α) (x : ℕ) : Prop := ∃ a ∈ l, start a ≤ x ∧ x < stop a

instance (x : ℕ) : Decidable (Covered start stop l x) :=
  inferInstanceAs (Decidable (∃ a ∈ l, _))

/-- Each interval starts at or before the stop of the one before it, the first one at or before
`last`. -/
def NoGap (start stop : α → ℕ) : ℕ → List α → Prop
  | _, [] => True
  | last, a :: l => start a ≤ last ∧ NoGap start stop (stop a) l

theorem Follows.stop_le (h : Follows n start stop cut a b) (hb : start b ≤ stop b)
    (hcut : cut b → stop b = n) : stop a ≤ stop b := by
  have hopen := h.isOpen
  rcases h.meets with h1 | h1 | h1 | h1
  · omega
  · omega
  · omega
  · have := hcut h1
    omega

/-- **No gap.** A staircase that covers every position from `last` to `n` has no gap. -/
theorem noGap_of_covered {last : ℕ} (hl : l.Pairwise (Follows n start stop cut))
    (hin : ∀ a ∈ l, start a ≤ stop a ∧ stop a ≤ n) (hcut : ∀ a ∈ l, cut a → stop a = n)
    (hlast : ∀ a ∈ l, last ≤ stop a)
    (hcov : ∀ x, last ≤ x → x < n → Covered start stop l x) : NoGap start stop last l := by
  induction l generalizing last with
  | nil => trivial
  | cons a l ih =>
    obtain ⟨ha, hl⟩ := List.pairwise_cons.1 hl
    have hstops : ∀ b ∈ l, stop a ≤ stop b := fun b hb =>
      (ha b hb).stop_le (hin b (by simp [hb])).1 (hcut b (by simp [hb]))
    have hstart : start a ≤ last := by
      by_contra hgt
      have hina := hin a (by simp)
      obtain ⟨b, hb, hb1, -⟩ := hcov last (le_refl _) (by omega)
      rcases List.mem_cons.1 hb with rfl | hb
      · omega
      · have := (ha b hb).sorted
        omega
    refine ⟨hstart, ih hl (fun b hb => hin b (by simp [hb])) (fun b hb => hcut b (by simp [hb]))
      hstops fun x hx hxn => ?_⟩
    -- a position behind `a` is covered by one of the intervals behind it
    have hle := hlast a (by simp)
    obtain ⟨b, hb, hb1, hb2⟩ := hcov x (by omega) hxn
    rcases List.mem_cons.1 hb with rfl | hb
    · omega
    · exact ⟨b, hb, hb1, hb2⟩

end Cover
