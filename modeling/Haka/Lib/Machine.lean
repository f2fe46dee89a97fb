import Mathlib.Tactic

/-!
# Runs of a deterministic machine

A machine is a step function from a state and an input to a new state and an output. `run` feeds
it a list of inputs; `Guarded` says that each input meets a condition in the state it is applied
to. The rules below carry every whole-run statement of the development: each one takes what one
guarded step does to what a guarded run does.
-/

namespace Machine

variable {σ τ ι ο : Type*}

def run (step : σ → ι → σ × ο) : σ → List ι → σ × List ο
  | s, [] => (s, [])
  | s, i :: is => ((run step (step s i).1 is).1, (step s i).2 :: (run step (step s i).1 is).2)

def Guarded (step : σ → ι → σ × ο) (guard : σ → ι → Prop) : σ → List ι → Prop
  | _, [] => True
  | s, i :: is => guard s i ∧ Guarded step guard (step s i).1 is

section Rules

variable {step : σ → ι → σ × ο} {guard : σ → ι → Prop}

@[simp] theorem run_nil (s : σ) : run step s [] = (s, []) := rfl

@[simp] theorem run_cons (s : σ) (i : ι) (is : List ι) : run step s (i :: is) =
      ((run step (step s i).1 is).1, (step s i).2 :: (run step (step s i).1 is).2) := rfl

@[simp] theorem guarded_nil (s : σ) : Guarded step guard s [] := trivial

@[simp] theorem guarded_cons (s : σ) (i : ι) (is : List ι) :
    Guarded step guard s (i :: is) ↔ guard s i ∧ Guarded step guard (step s i).1 is := Iff.rfl

instance decidableGuarded [∀ s i, Decidable (guard s i)] :
    ∀ (s : σ) (is : List ι), Decidable (Guarded step guard s is)
  | _, [] => isTrue trivial
  | s, i :: is => @instDecidableAnd _ _ _ (decidableGuarded (step s i).1 is)

theorem guarded_true (s : σ) (is : List ι) : Guarded step (fun _ _ => True) s is := by
  induction is generalizing s with
  | nil => trivial
  | cons i is ih => exact ⟨trivial, ih _⟩

theorem run_append (s : σ) (is js : List ι) : run step s (is ++ js) =
      ((run step (run step s is).1 js).1, (run step s is).2 ++ (run step (run step s is).1 js).2) := by
  induction is generalizing s with
  | nil => simp
  | cons i is ih => simp [ih]

theorem guarded_append (s : σ) (is js : List ι) : Guarded step guard s (is ++ js) ↔
      Guarded step guard s is ∧ Guarded step guard (run step s is).1 js := by
  induction is generalizing s with
  | nil => simp
  | cons i is ih => simp [ih, and_assoc]

variable {s : σ} {is : List ι}

/-- **Invariants.** What a guarded step keeps, a guarded run keeps. -/
theorem run_invariant {Inv : σ → Prop} (hstep : ∀ s i, Inv s → guard s i → Inv (step s i).1)
    (hs : Inv s) (hg : Guarded step guard s is) : Inv (run step s is).1 := by
  induction is generalizing s with
  | nil => exact hs
  | cons i is ih => exact ih (hstep s i hs hg.1) hg.2

theorem run_monotone {f : σ → ℤ} (hle : ∀ s i, f s ≤ f (step s i).1) (s : σ) (is : List ι) :
    f s ≤ f (run step s is).1 := by
  induction is generalizing s with
  | nil => exact le_refl _
  | cons i is ih => exact (hle s i).trans (ih _)

/-- **Quantities that grow.** If a step never makes a quantity smaller and keeps it exactly under
the guard, a run keeps it exactly if it is guarded. -/
theorem run_unchanged_iff {f : σ → ℤ} (hle : ∀ s i, f s ≤ f (step s i).1)
    (hstep : ∀ s i, f (step s i).1 = f s ↔ guard s i) (s : σ) (is : List ι) :
    f (run step s is).1 = f s ↔ Guarded step guard s is := by
  induction is generalizing s with
  | nil => exact ⟨fun _ => trivial, fun _ => rfl⟩
  | cons i is ih =>
    have hfirst := hle s i
    have hrest := run_monotone hle (step s i).1 is
    rw [guarded_cons, ← ih, ← hstep, run_cons]
    constructor
    · intro h
      -- the run ends where it began, so that neither part of it adds anything
      dsimp only at h
      constructor <;> omega
    · rintro ⟨hi, his⟩
      exact his.trans hi

/-- **Simulation.** If related states stay related under a guarded step, with equal outputs, then
a guarded run of the first machine has the outputs of the second. -/
theorem run_simulation {step' : τ → ι → τ × ο} {R : σ → τ → Prop}
    (hstep : ∀ s t i, R s t → guard s i →
      R (step s i).1 (step' t i).1 ∧ (step s i).2 = (step' t i).2) {t : τ} (hR : R s t)
    (hg : Guarded step guard s is) :
    R (run step s is).1 (run step' t is).1 ∧ (run step s is).2 = (run step' t is).2 := by
  induction is generalizing s t with
  | nil => exact ⟨hR, rfl⟩
  | cons i is ih =>
    obtain ⟨hR', ho⟩ := hstep s t i hR hg.1
    obtain ⟨hR'', hos⟩ := ih hR' hg.2
    refine ⟨hR'', ?_⟩
    simp only [run_cons, ho, hos]

/-- **Queues.** If each guarded step appends to the queue of the state what its output says was put
in and removes from its front what was taken out, then over a guarded run what was put in is what
was taken out followed by the queue. -/
theorem run_queue {β : Type*} {Inv : σ → List β → Prop} (enq deq : ο → List β)
    (hstep : ∀ s q i, Inv s q → guard s i →
      ∃ q', q ++ enq (step s i).2 = deq (step s i).2 ++ q' ∧ Inv (step s i).1 q') {q : List β}
    (hs : Inv s q) (hg : Guarded step guard s is) :
    ∃ q', q ++ (run step s is).2.flatMap enq = (run step s is).2.flatMap deq ++ q' ∧
      Inv (run step s is).1 q' := by
  induction is generalizing s q with
  | nil => exact ⟨q, by simp, hs⟩
  | cons i is ih =>
    obtain ⟨q1, h1, hs1⟩ := hstep s q i hs hg.1
    obtain ⟨q2, h2, hs2⟩ := ih hs1 hg.2
    refine ⟨q2, ?_, hs2⟩
    simp only [run_cons, List.flatMap_cons]
    rw [← List.append_assoc, h1, List.append_assoc, h2, List.append_assoc]

/-- The outputs of a run at the inputs that meet `p`. -/
def outputsAt (p : ι → Bool) (is : List ι) (os : List ο) : List ο :=
  ((is.zip os).filter fun x => p x.1).map Prod.snd

theorem outputsAt_cons (p : ι → Bool) (i : ι) (is : List ι) (o : ο) (os : List ο) :
    outputsAt p (i :: is) (o :: os) = if p i then o :: outputsAt p is os else outputsAt p is os := by
  cases hp : p i <;> simp [outputsAt, hp]

/-- **Isolation.** If steps at inputs that meet `p` keep two states related, with equal outputs, and
the other steps of the first one do too, then its outputs at the inputs that meet `p` are those of
the run of these inputs alone. -/
theorem run_isolated {p : ι → Bool} {R : σ → σ → Prop} (hsame : ∀ s t i, p i = true → R s t →
      R (step s i).1 (step t i).1 ∧ (step s i).2 = (step t i).2)
    (hother : ∀ s t i, p i = false → R s t → R (step s i).1 t) {t : σ} (hR : R s t) (is : List ι) :
    outputsAt p is (run step s is).2 = (run step t (is.filter p)).2 := by
  induction is generalizing s t with
  | nil => rfl
  | cons i is ih =>
    rw [run_cons, outputsAt_cons]
    cases hp : p i with
    | true =>
      obtain ⟨hR', ho⟩ := hsame s t i hp hR
      rw [List.filter_cons_of_pos hp, run_cons, ih hR', ho]
      rfl
    | false =>
      rw [List.filter_cons_of_neg (by simp [hp]), ih (hother s t i hp hR)]
      rfl

end Rules

end Machine
