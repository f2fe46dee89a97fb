import Mathlib.Tactic

/-!
# One's complement sums

In one's complement arithmetic with the largest word `M` a carry out of a sum is added to it again.
Such a sum is the ordinary one modulo `M`, and zero only if all its terms are: `Same` is the relation
between two numbers that reduce to the same word. It is compatible with sums and products, and a
number is related to its digits' sum in base `M + 1`, so reductions may be made at any time.
-/

namespace OnesComplement

variable {M a b c d n : ℕ}

/-- Two numbers that reduce to the same word. -/
structure Same (M a b : ℕ) : Prop where
  modEq : a ≡ b [MOD M]
  zero : a = 0 ↔ b = 0

theorem Same.rfl : Same M a a := ⟨Nat.ModEq.rfl, Iff.rfl⟩

theorem Same.symm (h : Same M a b) : Same M b a := ⟨h.modEq.symm, h.zero.symm⟩

theorem Same.trans (h : Same M a b) (h' : Same M b c) : Same M a c :=
  ⟨h.modEq.trans h'.modEq, h.zero.trans h'.zero⟩

theorem Same.add (h : Same M a b) (h' : Same M c d) : Same M (a + c) (b + d) :=
  ⟨h.modEq.add h'.modEq, by rw [Nat.add_eq_zero_iff, Nat.add_eq_zero_iff, h.zero, h'.zero]⟩

theorem Same.mul_left (k : ℕ) (h : Same M a b) : Same M (k * a) (k * b) :=
  ⟨h.modEq.mul_left k, by rw [Nat.mul_eq_zero, Nat.mul_eq_zero, h.zero]⟩

theorem same_mul_base (M a : ℕ) : Same M ((M + 1) * a) a := by
  refine ⟨?_, by simp⟩
  exact Nat.modEq_iff_dvd.2 ⟨-a, by push_cast; ring⟩

theorem Same.eq (h : Same M a b) (ha : a ≤ M) (hb : b ≤ M) : a = b := by
  rcases Nat.eq_zero_or_pos a with h0 | h0
  · rw [h0, h.zero.1 h0]
  have hb0 : 0 < b := Nat.pos_of_ne_zero fun hb0 => h0.ne' (h.zero.2 hb0)
  obtain ⟨a, rfl⟩ := Nat.exists_eq_add_of_le' h0
  obtain ⟨b, rfl⟩ := Nat.exists_eq_add_of_le' hb0
  have hab : a ≡ b [MOD M] := Nat.ModEq.add_right_cancel' 1 h.modEq
  rw [Nat.ModEq, Nat.mod_eq_of_lt (by omega), Nat.mod_eq_of_lt (by omega)] at hab
  rw [hab]

/-! ## Reduction -/

def carry (M s : ℕ) : ℕ := if s > M then s - M else s

def reduce (M n : ℕ) : ℕ := carry M (n % (M + 1) + n / (M + 1))

theorem same_carry (M s : ℕ) : Same M (carry M s) s := by
  rw [carry]
  split
  · exact ⟨(Nat.modEq_iff_dvd' (by omega)).2 ⟨1, by omega⟩, by omega⟩
  · exact Same.rfl

theorem carry_le (h : a ≤ 2 * M) : carry M a ≤ M := by
  rw [carry]
  split <;> omega

theorem same_reduce (M n : ℕ) : Same M (reduce M n) n := by
  have h : Same M (n % (M + 1) + n / (M + 1)) (n % (M + 1) + (M + 1) * (n / (M + 1))) :=
    Same.rfl.add (same_mul_base M _).symm
  rw [Nat.mod_add_div] at h
  exact (same_carry M _).trans h

theorem reduce_le (h : n < (M + 1) * (M + 1)) : reduce M n ≤ M := by
  have hlow : n % (M + 1) < M + 1 := Nat.mod_lt _ (Nat.succ_pos _)
  have hhigh : n / (M + 1) < M + 1 := Nat.div_lt_of_lt_mul h
  exact carry_le (by omega)

theorem reduce_le_self (M n : ℕ) : reduce M n ≤ n := by
  have h := Nat.mod_add_div n (M + 1)
  have hle : n / (M + 1) ≤ (M + 1) * (n / (M + 1)) := Nat.le_mul_of_pos_left _ (Nat.succ_pos M)
  rw [reduce, carry]
  split <;> omega

/-! ## Sums of words -/

def sum (M : ℕ) (l : List ℕ) : ℕ := l.foldl (fun s w => carry M (s + w)) 0

theorem foldl_spec {l : List ℕ} (hl : ∀ w ∈ l, w ≤ M) {s : ℕ} (hs : s ≤ M) :
    l.foldl (fun s w => carry M (s + w)) s ≤ M ∧
      Same M (l.foldl (fun s w => carry M (s + w)) s) (s + l.sum) := by
  induction l generalizing s with
  | nil => exact ⟨hs, Same.rfl⟩
  | cons w l ih =>
    obtain ⟨hw, hl⟩ := List.forall_mem_cons.1 hl
    obtain ⟨hle, hsame⟩ := ih hl (carry_le (show s + w ≤ 2 * M by omega))
    refine ⟨hle, hsame.trans ?_⟩
    rw [List.sum_cons, ← Nat.add_assoc]
    exact (same_carry M (s + w)).add Same.rfl

theorem sum_le {l : List ℕ} (hl : ∀ w ∈ l, w ≤ M) : sum M l ≤ M :=
  (foldl_spec hl (Nat.zero_le M)).1

theorem same_sum {l : List ℕ} (hl : ∀ w ∈ l, w ≤ M) : Same M (sum M l) l.sum := by
  have h := (foldl_spec hl (Nat.zero_le M)).2
  rwa [Nat.zero_add] at h

end OnesComplement
