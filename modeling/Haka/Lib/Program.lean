import Mathlib.Order.Defs.Unbundled
import Mathlib.Tactic

/-!
# Programs with state and exceptions

A program changes a state and returns a value or raises an exception; what it changed before the
exception stays. `Within R m` says that the states before and after `m` are related by `R`, whether
it returns or raises. When `R` is reflexive and transitive this is kept by every way of
putting programs together, so that it is proved for the primitive changes only. `Returns m s Q` says
that `m` returns from the state `s`, with a value and a state that meet `Q`.
-/

theorem Except.bind_eq_ok {ε α β : Type} {x : Except ε α} {f : α → Except ε β} {b : β} :
    x >>= f = .ok b ↔ ∃ a, x = .ok a ∧ f a = .ok b := by
  cases x with
  | error e => exact ⟨nofun, fun ⟨_, h, _⟩ => nomatch h⟩
  | ok a => exact ⟨fun h => ⟨a, rfl, h⟩, fun ⟨_, h, h'⟩ => by cases h; exact h'⟩

/-- Returns a value that meets `Q`, or raises an exception that meets `E`. -/
def Except.Ensures {ε α : Type} (E : ε → Prop) (Q : α → Prop) : Except ε α → Prop
  | .ok a => Q a
  | .error e => E e

section Ensures

variable {ε α β : Type} {E : ε → Prop} {P Q : α → Prop} {R : β → Prop} {x : Except ε α}
  {f : α → Except ε β}

theorem Except.Ensures.ok {a : α} (h : x.Ensures E Q) (hx : x = .ok a) : Q a := by
  subst hx
  exact h

theorem Except.Ensures.mono (h : x.Ensures E P) (hPQ : ∀ a, x = .ok a → P a → Q a) :
    x.Ensures E Q := by
  cases x with
  | ok a => exact hPQ a rfl h
  | error e => exact h

theorem Except.Ensures.bind (h : x.Ensures E P) (hf : ∀ a, x = .ok a → P a → (f a).Ensures E R) :
    (x >>= f).Ensures E R := by
  cases x with
  | ok a => exact hf a rfl h
  | error e => exact h

end Ensures

/-- Programs over states `σ` with exceptions `ε`. -/
abbrev Program (ε σ α : Type) := ExceptT ε (StateM σ) α

namespace Program

variable {ε σ α β : Type}

def exec (m : Program ε σ α) (s : σ) : Except ε α × σ := m.run.run s

@[simp] theorem exec_pure (a : α) (s : σ) : exec (pure a : Program ε σ α) s = (.ok a, s) := rfl

@[simp] theorem exec_throw (e : ε) (s : σ) : exec (throw e : Program ε σ α) s = (.error e, s) := rfl

@[simp] theorem exec_get (s : σ) : exec (get : Program ε σ σ) s = (.ok s, s) := rfl

@[simp] theorem exec_modify (f : σ → σ) (s : σ) :
    exec (modify f : Program ε σ PUnit) s = (.ok PUnit.unit, f s) := rfl

theorem exec_bind (m : Program ε σ α) (f : α → Program ε σ β) (s : σ) :
    exec (m >>= f) s = match exec m s with
      | (.ok a, s') => exec (f a) s'
      | (.error e, s') => (.error e, s') := by
  unfold exec
  simp only [ExceptT.run_bind, StateT.run_bind]
  rcases m.run.run s with ⟨_ | a, s'⟩ <;> rfl

theorem exec_tryCatch (m : Program ε σ α) (f : ε → Program ε σ α) (s : σ) :
    exec (tryCatch m f) s = match exec m s with
      | (.ok a, s') => (.ok a, s')
      | (.error e, s') => exec (f e) s' := by
  unfold exec
  show (ExceptT.tryCatch m f).run.run s = _
  unfold ExceptT.tryCatch
  simp only [ExceptT.run_mk, StateT.run_bind]
  show (bind (m.run.run s) _) = _
  rcases m.run.run s with ⟨_ | a, s'⟩ <;> rfl

@[simp] theorem exec_get_bind (f : σ → Program ε σ β) (s : σ) :
    exec (get >>= f) s = exec (f s) s := by
  rfl

@[simp] theorem exec_modify_bind (g : σ → σ) (f : PUnit → Program ε σ β) (s : σ) :
    exec (modify g >>= f) s = exec (f ⟨⟩) (g s) := by
  rfl

theorem exec_bind_pure (m : Program ε σ α) (b : β) (s : σ) :
    (exec (m >>= fun _ => pure b) s).2 = (exec m s).2 := by
  rw [exec_bind]
  rcases exec m s with ⟨_ | a, s'⟩ <;> rfl

/-! ## Relations between the states before and after -/

/-- The program leaves a state that `R` relates to the one it started in. -/
def Within (R : σ → σ → Prop) (m : Program ε σ α) : Prop := ∀ s, R s (exec m s).2

section Rules

variable {R : σ → σ → Prop} {m : Program ε σ α}

theorem within_pure [Std.Refl R] (a : α) : Within R (pure a : Program ε σ α) := fun s => refl_of R s

theorem within_throw [Std.Refl R] (e : ε) : Within R (throw e : Program ε σ α) := fun s => refl_of R s

theorem within_modify {f : σ → σ} (hf : ∀ s, R s (f s)) :
    Within R (modify f : Program ε σ PUnit) := hf

variable {f : α → Program ε σ β} {s : σ}

/-- The second program need only be within `R` from the states the first one may leave. -/
theorem within_bind_at [IsTrans σ R] (hm : R s (exec m s).2)
    (hf : ∀ a s', exec m s = (.ok a, s') → R s' (exec (f a) s').2) : R s (exec (m >>= f) s).2 := by
  rw [exec_bind]
  rcases hs : exec m s with ⟨_ | a, s'⟩
  · simpa [hs] using hm
  · rw [hs] at hm
    exact trans_of R hm (hf a s' hs)

theorem within_bind [IsTrans σ R] (hm : Within R m)
    (hf : ∀ a, Within R (f a)) : Within R (m >>= f) :=
  fun s => within_bind_at (hm s) fun a s' _ => hf a s'

/-- A program that reads the state is within `R` if each of its continuations is, from the state
read. -/
theorem within_get {f : σ → Program ε σ β} (hf : ∀ s, R s (exec (f s) s).2) :
    Within R (get >>= f) := fun s => by
  exact hf s

/-- The handler need only be within `R` from the states the program may raise in. -/
theorem within_tryCatch_at [IsTrans σ R] {f : ε → Program ε σ α} (hm : R s (exec m s).2)
    (hf : ∀ e s', exec m s = (.error e, s') → R s' (exec (f e) s').2) :
    R s (exec (tryCatch m f) s).2 := by
  rw [exec_tryCatch]
  rcases hs : exec m s with ⟨e | a, s'⟩
  · rw [hs] at hm
    exact trans_of R hm (hf e s' hs)
  · simpa [hs] using hm

theorem within_tryCatch [IsTrans σ R] {f : ε → Program ε σ α} (hm : Within R m)
    (hf : ∀ e, Within R (f e)) : Within R (tryCatch m f) :=
  fun s => within_tryCatch_at (hm s) fun e s' _ => hf e s'

theorem Within.mono {R' : σ → σ → Prop} (hm : Within R m) (hR : ∀ s s', R s s' → R' s s') :
    Within R' m := fun s => hR _ _ (hm s)

theorem within_ite {c : Prop} [Decidable c] {n : Program ε σ α} (hm : Within R m)
    (hn : Within R n) : Within R (if c then m else n) := by
  split_ifs
  · exact hm
  · exact hn

end Rules

/-! ## Programs that return -/

/-- From the state `s` the program returns, with a value and a state that meet `Q`. -/
def Returns (m : Program ε σ α) (s : σ) (Q : α → σ → Prop) : Prop :=
  ∃ a s', exec m s = (.ok a, s') ∧ Q a s'

section Returns

variable {m : Program ε σ α} {s : σ} {Q : α → σ → Prop}

theorem returns_modify {g : σ → σ} {Q : PUnit → σ → Prop} (h : Q ⟨⟩ (g s)) :
    Returns (modify g : Program ε σ PUnit) s Q :=
  ⟨⟨⟩, g s, rfl, h⟩

theorem Returns.mono {Q' : α → σ → Prop} (h : Returns m s Q) (hQ : ∀ a s', Q a s' → Q' a s') :
    Returns m s Q' := by
  obtain ⟨a, s', he, hq⟩ := h
  exact ⟨a, s', he, hQ a s' hq⟩

theorem returns_bind {f : α → Program ε σ β} {R : α → σ → Prop} {Q : β → σ → Prop}
    (hm : Returns m s R) (hf : ∀ a s', R a s' → Returns (f a) s' Q) : Returns (m >>= f) s Q := by
  obtain ⟨a, s', he, hr⟩ := hm
  obtain ⟨b, s'', he', hq⟩ := hf a s' hr
  refine ⟨b, s'', ?_, hq⟩
  rw [exec_bind, he]
  exact he'

theorem returns_get {f : σ → Program ε σ β} {Q : β → σ → Prop} (hf : Returns (f s) s Q) :
    Returns (get >>= f) s Q :=
  returns_bind (R := fun a s' => a = s ∧ s' = s) ⟨s, s, rfl, rfl, rfl⟩ fun _ _ h => by
    rw [h.1, h.2]
    exact hf

theorem Returns.state (h : Returns m s Q) : ∃ a, Q a (exec m s).2 := by
  obtain ⟨a, s', he, hq⟩ := h
  exact ⟨a, by rw [he]; exact hq⟩

end Returns

end Program
