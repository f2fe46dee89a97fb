import Mathlib.Tactic

/-!
# Runs of a step relation

`Steps R n s t` says that `n` steps of the relation `R` lead from `s` to `t`. When `R` is
deterministic, two runs from one state follow each other (`Steps.follow`). A run of a partial function
can be computed (`stateAfter`).
-/

variable {σ : Type*} {R : σ → σ → Prop}

/-- `n` steps of `R`. -/
inductive Steps (R : σ → σ → Prop) : ℕ → σ → σ → Prop
  | refl (s : σ) : Steps R 0 s s
  | head {n : ℕ} {s t u : σ} : R s t → Steps R n t u → Steps R (n + 1) s u

namespace Steps

variable {m n : ℕ} {s t u : σ}

theorem cases_head (h : Steps R n s t) : s = t ∨ ∃ u k, R s u ∧ Steps R k u t := by
  cases h with
  | refl => exact .inl rfl
  | head hst h => exact .inr ⟨_, _, hst, h⟩

theorem follow (hR : ∀ s t u, R s t → R s u → t = u) (h : Steps R m s t) (h' : Steps R n s u)
    (hmn : m ≤ n) : Steps R (n - m) t u := by
  induction h generalizing n with
  | refl s => rwa [Nat.sub_zero]
  | head hst _ ih =>
    cases h' with
    | refl => omega
    | head hst' h' =>
      obtain rfl := hR _ _ _ hst hst'
      rw [Nat.add_sub_add_right]
      exact ih h' (by omega)

end Steps

/-- The state after `n` steps of a partial function. -/
def stateAfter (next : σ → Option σ) : ℕ → σ → Option σ
  | 0, s => some s
  | n + 1, s => (next s).bind (stateAfter next n)

theorem stateAfter_steps {next : σ → Option σ} : ∀ {n : ℕ} {s t : σ}, stateAfter next n s = some t →
      Steps (fun s t => next s = some t) n s t
  | 0, s, _, h => Option.some.inj h ▸ .refl s
  | n + 1, s, t, h => by
    obtain ⟨u, hu, ht⟩ := Option.bind_eq_some_iff.mp h
    exact .head hu (stateAfter_steps ht)
