import Mathlib.Tactic

/-!
# Blocks in a row

Blocks of given lengths lie one after the other. `offset` is where a block starts, and `passed` is
how many blocks end at or before a position, where a walk that has reached the position stops: the
empty blocks that begin there are not passed. `relocate` maps a position to a second row, of
as many blocks: it keeps its distance to the last end that was passed.
-/

namespace Blocks

open List

/-- Where block `i` starts. -/
def offset (lens : List ℕ) (i : ℕ) : ℕ := (lens.take i).sum

/-- How many blocks a walk to position `y` passes. -/
def passed (lens : List ℕ) (y : ℕ) : ℕ :=
  (range lens.length).countP fun i => (i = 0 ∨ offset lens i < y) ∧ offset lens (i + 1) ≤ y

@[simp] theorem offset_zero (lens : List ℕ) : offset lens 0 = 0 := rfl

@[simp] theorem offset_cons (n : ℕ) (lens : List ℕ) (i : ℕ) :
    offset (n :: lens) (i + 1) = n + offset lens i := rfl

theorem offset_succ (lens : List ℕ) {i : ℕ} (hi : i < lens.length) :
    offset lens (i + 1) = offset lens i + lens[i] := by
  rw [offset, take_succ_eq_append_getElem hi, sum_append, sum_singleton]
  rfl

theorem offset_length (lens : List ℕ) : offset lens lens.length = lens.sum := by
  rw [offset, take_length]

theorem offset_mono (lens : List ℕ) {i j : ℕ} (h : i ≤ j) : offset lens i ≤ offset lens j := by
  induction lens generalizing i j with
  | nil => simp [offset]
  | cons n lens ih =>
    rcases i with _ | i
    · exact Nat.zero_le _
    · obtain ⟨j, rfl⟩ : ∃ j', j = j' + 1 := ⟨j - 1, by omega⟩
      exact Nat.add_le_add_left (ih (by omega)) n

theorem offset_le_sum (lens : List ℕ) (i : ℕ) : offset lens i ≤ lens.sum := by
  rcases Nat.le_total i lens.length with h | h
  · rw [← offset_length]
    exact offset_mono lens h
  · rw [offset, take_of_length_le h]

@[simp] theorem passed_nil (y : ℕ) : passed [] y = 0 := rfl

/-- The walk, block by block. -/
theorem passed_cons (n : ℕ) (lens : List ℕ) (y : ℕ) :
    passed (n :: lens) y = if y < n then 0 else if y ≤ n then 1 else passed lens (y - n) + 1 := by
  have hsplit : passed (n :: lens) y = (if n ≤ y then 1 else 0) +
      (range lens.length).countP fun i => n + offset lens i < y ∧
        n + offset lens (i + 1) ≤ y := by
    unfold passed
    rw [length_cons, range_succ_eq_map, countP_cons, countP_map, Nat.add_comm]
    congr 1
    · simp [offset]
    · apply countP_congr
      intro i _
      simp
  have hnone : y ≤ n → ((range lens.length).countP fun i => n + offset lens i < y ∧
      n + offset lens (i + 1) ≤ y) = 0 := by
    intro h
    rw [countP_eq_zero]
    intro i _
    simp only [decide_eq_true_eq]
    omega
  rw [hsplit]
  rcases lt_trichotomy y n with h | h | h
  · rw [if_neg (by omega), if_pos h, hnone (by omega)]
  · rw [if_pos (by omega), if_neg (by omega), if_pos (by omega), hnone (by omega)]
  · rw [if_pos (by omega), if_neg (by omega), if_neg (by omega), Nat.add_comm]
    congr 1
    apply countP_congr
    intro i _
    simp only [decide_eq_true_eq]
    rcases i with _ | i
    · simp only [offset_zero, true_or, true_and]
      omega
    · simp only [Nat.succ_ne_zero, false_or]
      omega

theorem passed_spec (lens : List ℕ) (y : ℕ) :
    passed lens y ≤ lens.length ∧ offset lens (passed lens y) ≤ y ∧
      (offset lens (passed lens y) = y ∨ passed lens y = lens.length ∨
        y < offset lens (passed lens y + 1)) := by
  induction lens generalizing y with
  | nil => simp
  | cons n lens ih =>
    rw [passed_cons]
    split_ifs with h1 h2
    · refine ⟨Nat.zero_le _, Nat.zero_le _, .inr (.inr ?_)⟩
      simpa using h1
    · have hn : y = n := by omega
      refine ⟨by simp, by simp [hn], .inl (by simp [hn])⟩
    · obtain ⟨hlen, hle, hstop⟩ := ih (y - n)
      simp only [length_cons, offset_cons]
      refine ⟨by omega, by omega, ?_⟩
      rcases hstop with h | h | h
      · exact .inl (by omega)
      · exact .inr (.inl (by omega))
      · exact .inr (.inr (by omega))

theorem passed_inside (lens : List ℕ) {i y : ℕ} (hlt : offset lens i < y)
    (hle : y < offset lens (i + 1)) : passed lens y = i := by
  induction lens generalizing i y with
  | nil => simp [offset] at hle
  | cons n lens ih =>
    rw [passed_cons]
    rcases i with _ | i
    · rw [if_pos (by simpa using hle)]
    · rw [offset_cons] at hlt hle
      rw [if_neg (by omega), if_neg (by omega), ih (i := i) (by omega) (by omega)]

theorem passed_end (lens : List ℕ) {i : ℕ} (hlt : offset lens i < offset lens (i + 1)) :
    passed lens (offset lens (i + 1)) = i + 1 := by
  induction lens generalizing i with
  | nil => simp [offset] at hlt
  | cons n lens ih =>
    rw [passed_cons]
    rcases i with _ | i
    · simp
    · rw [offset_cons, offset_cons] at hlt
      rw [offset_cons, if_neg (by omega), if_neg (by omega), Nat.add_sub_cancel_left, ih (by omega)]

theorem passed_mono (lens : List ℕ) {y y' : ℕ} (h : y ≤ y') : passed lens y ≤ passed lens y' := by
  apply countP_mono_left
  intro i _
  simp only [decide_eq_true_eq]
  rintro ⟨h1, h2⟩
  exact ⟨h1.imp_right fun h0 => by omega, by omega⟩

theorem passed_all {lens : List ℕ} {y : ℕ} (h : lens.sum < y) : passed lens y = lens.length := by
  rw [← length_range (n := lens.length)]
  refine countP_eq_length.2 fun i _ => ?_
  have h1 := offset_le_sum lens i
  have h2 := offset_le_sum lens (i + 1)
  rw [decide_eq_true_eq]
  omega

/-- Only empty blocks are behind block `m`, which is not empty or the first one. -/
def LastSolid (lens : List ℕ) (m : ℕ) : Prop :=
  (∀ n ∈ lens.drop m, n = 0) ∧ (m = 1 ∨ ∃ n, lens[m - 1]? = some n ∧ 0 < n)

theorem exists_lastSolid (lens : List ℕ) : ∃ m, LastSolid lens m := by
  induction lens using reverseRecOn with
  | nil => exact ⟨1, by simp, .inl rfl⟩
  | append_singleton lens n ih =>
    rcases Nat.eq_zero_or_pos n with rfl | hn
    · obtain ⟨m, hzero, hsolid⟩ := ih
      refine ⟨m, fun k hk => ?_, hsolid.imp_right ?_⟩
      · rw [drop_append] at hk
        rcases mem_append.1 hk with hk | hk
        · exact hzero k hk
        · exact mem_singleton.1 (mem_of_mem_drop hk)
      · rintro ⟨n, hn, hpos⟩
        exact ⟨n, (getElem?_append_left (List.getElem?_eq_some_iff.1 hn).1).trans hn, hpos⟩
    · exact ⟨lens.length + 1, by simp, .inr ⟨n, by simp, hn⟩⟩

/-- A walk to the end of all blocks stops behind the last one that is not empty. -/
theorem passed_sum {lens : List ℕ} {m : ℕ} (h : LastSolid lens m) :
    passed lens lens.sum = min m lens.length := by
  obtain ⟨hzero, hsolid⟩ := h
  have hsum : offset lens m = lens.sum := by
    rw [← sum_take_add_sum_drop lens m, sum_eq_zero hzero]
    rfl
  rcases hsolid with rfl | ⟨n, hn, hpos⟩
  · cases lens with
    | nil => rfl
    | cons n lens =>
      rw [← hsum, passed_cons]
      simp
  · rcases m with _ | m
    · obtain ⟨h0, rfl⟩ := List.getElem?_eq_some_iff.1 (show lens[0]? = some n from hn)
      have hstep := offset_succ lens h0
      have hle := offset_le_sum lens (0 + 1)
      omega
    · obtain ⟨hm, rfl⟩ := List.getElem?_eq_some_iff.1 (show lens[m]? = some n from hn)
      have hstep := offset_succ lens hm
      rw [← hsum, passed_end lens (by omega), Nat.min_eq_left hm]

/-! ## Two rows -/

def relocate (lens lens' : List ℕ) (y : ℕ) : ℕ :=
  offset lens' (passed lens y) + (y - offset lens (passed lens y))

section Relocate

variable {lens lens' : List ℕ} {i y : ℕ}

theorem relocate_inside (hlt : offset lens i < y) (hy : y < offset lens (i + 1)) :
    relocate lens lens' y = offset lens' i + (y - offset lens i) := by
  rw [relocate, passed_inside lens hlt hy]

theorem relocate_end (hlt : offset lens i < offset lens (i + 1)) :
    relocate lens lens' (offset lens (i + 1)) = offset lens' (i + 1) := by
  rw [relocate, passed_end lens hlt, Nat.sub_self, Nat.add_zero]

variable (hgrow : ∀ i < lens.length,
  offset lens (i + 1) + offset lens' i ≤ offset lens' (i + 1) + offset lens i + 1)

include hgrow

theorem relocate_le_next (hy : y ≤ lens.sum) :
    relocate lens lens' y ≤ offset lens' (passed lens y + 1) := by
  have hmono := offset_mono lens' (Nat.le_add_right (passed lens y) 1)
  obtain ⟨hlen, hle, hstop⟩ := passed_spec lens y
  unfold relocate
  rcases hstop with h | h | h
  · omega
  · rw [h, offset_length] at hle ⊢
    rw [h] at hmono
    omega
  · have hpassed : passed lens y < lens.length := by
      rcases Nat.lt_or_eq_of_le hlen with h0 | h0
      · exact h0
      · have hsum := offset_le_sum lens (passed lens y + 1)
        rw [h0, offset_length] at hle
        omega
    have hg := hgrow _ hpassed
    omega

theorem relocate_mono {y' : ℕ} (h : y ≤ y') (hy : y' ≤ lens.sum) :
    relocate lens lens' y ≤ relocate lens lens' y' := by
  rcases Nat.lt_or_eq_of_le (passed_mono lens h) with hp | hp
  · calc relocate lens lens' y ≤ offset lens' (passed lens y + 1) :=
          relocate_le_next hgrow (h.trans hy)
      _ ≤ offset lens' (passed lens y') := offset_mono lens' hp
      _ ≤ relocate lens lens' y' := Nat.le_add_right _ _
  · unfold relocate
    rw [hp]
    omega

theorem relocate_le_end (hlt : offset lens i < y) (hy : y ≤ offset lens (i + 1))
    (hi : i < lens.length) : relocate lens lens' y ≤ offset lens' (i + 1) := by
  rcases Nat.lt_or_eq_of_le hy with h | rfl
  · have hg := hgrow i hi
    rw [relocate_inside hlt h]
    omega
  · exact (relocate_end hlt).le

end Relocate

end Blocks
