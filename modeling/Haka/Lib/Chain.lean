import Mathlib.Data.Set.Finite.Basic
import Mathlib.Data.Option.Basic
import Mathlib.Tactic

/-!
# Chains

A function that gives the next element, or none, makes a chain from every element. A chain that stays in
a finite set ends exactly if it meets no element twice; a chain that another one follows step by step
ends exactly if that one does.
-/

namespace Chain

variable {α β : Type*} {f : α → Option α} {g : β → Option β} {a x : α} {b : β} {m n : ℕ}

/-- The element of the chain after `n` steps. -/
def after (f : α → Option α) : ℕ → α → Option α
  | 0, a => some a
  | n + 1, a => (f a).bind (after f n)

def Ends (f : α → Option α) (a : α) : Prop := ∃ n, after f n a = none

def Simple (f : α → Option α) (a : α) : Prop :=
  ∀ m n x, m < n → after f m a = some x → after f n a ≠ some x

@[simp] theorem after_zero (f : α → Option α) (a : α) : after f 0 a = some a := rfl

theorem after_succ (f : α → Option α) (n : ℕ) (a : α) :
    after f (n + 1) a = (f a).bind (after f n) := rfl

theorem after_add (f : α → Option α) (m n : ℕ) (a : α) :
    after f (m + n) a = (after f m a).bind (after f n) := by
  induction m generalizing a with
  | zero => simp
  | succ m ih =>
    rw [Nat.succ_add, after_succ, after_succ]
    cases f a with
    | none => rfl
    | some a' => exact ih a'

theorem after_none_of_le (hmn : m ≤ n) (h : after f m a = none) : after f n a = none := by
  obtain ⟨k, rfl⟩ := Nat.exists_eq_add_of_le hmn
  rw [after_add, h]
  rfl

theorem after_mul (h : after f n x = some x) (k : ℕ) : after f (k * n) x = some x := by
  induction k with
  | zero => simp
  | succ k ih =>
    rw [Nat.succ_mul, after_add, ih]
    exact h

theorem Ends.simple (h : Ends f a) : Simple f a := by
  obtain ⟨stop, hstop⟩ := h
  intro m n x hmn hm hn
  obtain ⟨k, rfl⟩ := Nat.exists_eq_add_of_lt hmn
  have hloop : after f (k + 1) x = some x := by
    rw [Nat.add_assoc, after_add, hm] at hn
    exact hn
  have hlate : after f (m + stop * (k + 1)) a = some x := by
    rw [after_add, hm]
    exact after_mul hloop stop
  have hle : stop ≤ m + stop * (k + 1) := by nlinarith
  rw [after_none_of_le hle hstop] at hlate
  cases hlate

theorem Simple.ends {s : Set α} (hs : s.Finite) (hmem : ∀ n x, after f n a = some x → x ∈ s)
    (h : Simple f a) : Ends f a := by
  by_contra hend
  have hsome : ∀ n, ∃ x, after f n a = some x := by
    intro n
    exact Option.ne_none_iff_exists'.1 fun hn => hend ⟨n, hn⟩
  choose x hx using hsome
  have hinj : Function.Injective x := by
    intro m n heq
    rcases lt_trichotomy m n with hlt | rfl | hlt
    · exact absurd (heq ▸ hx n) (h m n (x m) hlt (hx m))
    · rfl
    · exact absurd (heq ▸ hx m) (h n m (x n) hlt (hx n))
  exact Set.infinite_of_injective_forall_mem hinj (fun n => hmem n _ (hx n)) hs

section Simulation

variable {R : α → β → Prop}

theorem after_rel (hstep : ∀ a b, R a b → Option.Rel R (f a) (g b)) (h : R a b) (n : ℕ) :
    Option.Rel R (after f n a) (after g n b) := by
  induction n generalizing a b with
  | zero => exact .some h
  | succ n ih =>
    rw [after_succ, after_succ]
    have hrel := hstep a b h
    revert hrel
    generalize f a = a', g b = b'
    rintro (h' | _)
    · exact ih h'
    · exact .none

theorem ends_iff (hstep : ∀ a b, R a b → Option.Rel R (f a) (g b)) (h : R a b) :
    Ends f a ↔ Ends g b := by
  have heach : ∀ n, after f n a = none ↔ after g n b = none := by
    intro n
    have hrel := after_rel hstep h n
    revert hrel
    generalize after f n a = a', after g n b = b'
    rintro (_ | _) <;> simp
  exact exists_congr heach

end Simulation

end Chain
