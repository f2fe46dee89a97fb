import Haka.StateMachine.Instance

/-!
# The timers of an instance over a run

The timers of an instance change in two ways only: they are stopped when a state is left, and those
of a state are started once its enter callback has returned. At any time they are the timers of a
sequence of states, so that what holds of these sequences holds of every run of an instance.
-/

namespace Haka

open Machine

/-- The timers of the states `es`, entered one after the other. -/
def Timers.after (self : ℕ) (es : List (ℕ × Bool)) : Timers := (run enterStep (.create self) es).1

theorem Timers.stop_stop (t : Timers) : t.stop.stop = t.stop := by
  unfold stop setArmed
  simp only [List.mapIdx_mapIdx]
  congr 3
  funext i e
  split_ifs <;> rfl

theorem Timers.after_start (self : ℕ) (es : List (ℕ × Bool)) (moves : Bool) (count : ℕ) :
    (after self es).stop.start moves count = after self (es ++ [(count, moves)]) := by
  unfold after
  rw [run_append, run_cons, run_nil]
  rfl

/-- A result that is not a fault meets `P`. -/
def Gives (P : Instance → Prop) : Except SmFault Instance → Prop
  | .ok c => P c
  | .error _ => True

theorem Gives.map {P : Instance → Prop} {r : Except SmFault Instance} {f : Instance → Instance}
    (h : Gives P r) (hf : ∀ c, P c → P (f c)) : Gives P (r.map f) := by
  cases r with
  | ok c => exact hf c h
  | error => exact h

namespace Instance

/-- The timers are those of a sequence of states, and they are stopped if there is no state. -/
def Timed (self : ℕ) (c : Instance) : Prop :=
  ∃ es, c.timers = (Timers.after self es).stop ∨ c.current ≠ none ∧ c.timers = Timers.after self es

variable {self : ℕ} (m : StateMachine) (env : Environment) {c : Instance}

theorem haveTransition_eq (c : Instance) (kind : Transition) (s : ℕ) :
    ∃ log, (haveTransition m env c kind s).1 = { c with log := log } := by
  unfold haveTransition
  split_ifs
  · exact ⟨_, rfl⟩
  · exact ⟨c.log, rfl⟩

theorem timed_leaveState (h : Timed self c) :
    ∃ es, (leaveState m env c).1.timers = (Timers.after self es).stop := by
  obtain ⟨es, hes⟩ := h
  refine ⟨es, ?_⟩
  unfold leaveState
  split
  next hs => exact hes.resolve_right fun h0 => h0.1 hs
  next s hs =>
    obtain ⟨log, hlog⟩ := haveTransition_eq m env { c with timers := c.timers.stop } .leave s
    show (haveTransition m env { c with timers := c.timers.stop } .leave s).1.timers = _
    rw [hlog]
    rcases hes with hes | ⟨-, hes⟩
    · exact (congrArg Timers.stop hes).trans (Timers.stop_stop _)
    · exact congrArg Timers.stop hes

theorem timed_finish (h : Timed self c) : Timed self (instanceFinish m env c) := by
  unfold instanceFinish
  split_ifs
  · exact h
  split
  · exact h
  next s hs =>
    obtain ⟨es, hes⟩ := timed_leaveState m env h
    obtain ⟨log, hlog⟩ := haveTransition_eq m env (leaveState m env c).1 .finish s
    rw [hlog]
    exact ⟨es, .inl hes⟩

theorem timed_fail (h : Timed self c) : Timed self (instanceFail m env c) := by
  unfold instanceFail
  split_ifs
  · exact h
  · exact h
  refine timed_finish m env ?_
  split
  · exact h
  next s hs =>
    obtain ⟨log, hlog⟩ := haveTransition_eq m env { c with failed := true, inFailure := true } .fail s
    rw [hlog]
    exact h

theorem timed_enterState {update : Instance → Target → Except SmFault Instance}
    (hup : ∀ c t, Timed self c → Gives (Timed self) (update c t)) (h : Timed self c) (s : ℕ) :
    Gives (Timed self) (enterState m env update c s) := by
  have hback : ∀ c₁ t, Timed self c₁ → Gives (Timed self)
      ((update c₁ t).map fun c₂ => { c₂ with inTransition := c.inTransition }) :=
    fun c₁ t h₁ => (hup c₁ t h₁).map fun _ h₂ => h₂
  obtain ⟨es, hes⟩ := timed_leaveState m env (c := { c with inTransition := true }) h
  unfold enterState
  generalize leaveState m env { c with inTransition := true } = l at hes
  obtain ⟨c₁, _ | t⟩ := l
  swap
  · exact hback c₁ t ⟨es, .inl hes⟩
  obtain ⟨log, hlog⟩ := haveTransition_eq m env
    { c₁ with current := some s, log := .entered s :: c₁.log } .enter s
  dsimp only at hes ⊢
  generalize haveTransition m env _ .enter s = e at hlog
  obtain ⟨c₂, _ | t⟩ := e
  · obtain rfl : c₂ = _ := hlog
    -- the enter callback has returned: the timers of the state are started
    refine ⟨es ++ [((m.states s).timeouts, env.moves log)], .inr ⟨Option.some_ne_none s, ?_⟩⟩
    rw [← Timers.after_start, ← hes]
  · obtain rfl : c₂ = _ := hlog
    exact hback _ t ⟨es, .inl hes⟩

theorem timed_update (n : ℕ) (h : Timed self c) (target : Target) :
    Gives (Timed self) (instanceUpdate m env n c target) := by
  induction n generalizing c target with
  | zero => trivial
  | succ n ih =>
    unfold instanceUpdate
    split_ifs
    · exact h
    cases target with
    | fail => exact timed_fail m env h
    | finish => exact timed_finish m env h
    | state s => exact timed_enterState m env (fun c t h => ih h t) h s

theorem timed_init (h : Timed self c) : Gives (Timed self) (instanceInit m env c) := by
  have henter := timed_enterState m env (fun c t h => timed_update m env env.stack h t) h m.initial
  unfold instanceInit
  generalize enterState m env _ c m.initial = r at henter
  cases r with
  | error => trivial
  | ok c₁ =>
    dsimp only
    split
    · trivial
    next s hs =>
      obtain ⟨log, hlog⟩ := haveTransition_eq m env
        { c₁ with finished := false, failed := false, inFailure := false } .init s
      rw [hlog]
      exact henter

theorem timed_timeout (h : Timed self c) (data : Address) :
    Gives (Timed self) (transitionTimeout m env c data) := by
  unfold transitionTimeout
  split
  · trivial
  split_ifs
  · exact h
  split
  · trivial
  split_ifs
  swap
  · trivial
  split
  next c₁ heq =>
    obtain ⟨rfl, -⟩ := Prod.mk.inj heq
    exact h
  next c₁ t heq =>
    obtain ⟨rfl, -⟩ := Prod.mk.inj heq
    refine timed_update m env env.stack ?_ t
    exact h

theorem timed_perform (h : Timed self c) (op : SmOp) : Gives (Timed self) (c.perform m env op) := by
  cases op with
  | init => exact timed_init m env h
  | update target => exact timed_update m env _ h target
  | timeout i =>
    unfold perform
    dsimp only
    split
    · exact h
    split_ifs
    · exact timed_timeout m env h _
    · exact h
  | fail => exact timed_fail m env h
  | finish => exact timed_finish m env h

end Instance

/-- **Whole runs.** The timers of an instance are at any time those of a sequence of states, stopped
if the last one has been left. If no state of the sequence moves the vector, the data of every timer
in use designates its element. -/
theorem run_timed (m : StateMachine) (self : ℕ) (is : List (SmOp × Environment)) {c : Instance}
    (hc : (run (smStep m) (.ok (.create self)) is).1 = .ok c) :
    ∃ es, (c.timers = (Timers.after self es).stop ∨ c.timers = Timers.after self es) ∧
      (Guarded Timers.enterStep Timers.Stays (.create self) es →
        ∀ i < c.timers.used, c.timers.Designates i) := by
  have hstep : ∀ r i, Gives (Instance.Timed self) r → True →
      Gives (Instance.Timed self) (smStep m r i).1 := fun r i hr _ => by
    cases r with
    | error f => trivial
    | ok c => exact Instance.timed_perform m i.2 hr i.1
  have hstart : Gives (Instance.Timed self) (.ok (.create self)) := ⟨[], .inl rfl⟩
  have htimed := run_invariant hstep hstart (guarded_true _ is)
  rw [hc] at htimed
  obtain ⟨es, hes⟩ := htimed
  have hor : c.timers = (Timers.after self es).stop ∨ c.timers = Timers.after self es :=
    hes.imp_right And.right
  refine ⟨es, hor, fun hg i hi => ?_⟩
  have hkeep : ∀ t e, Timers.Live t → t.Stays e → (t.enterStep e).1.Live :=
    fun t e h hs => Timers.live_step h e hs
  have hlive := run_invariant hkeep (Timers.live_create self) hg
  have hlive' : c.timers.Live := by
    rcases hor with h | h
    · rw [h]
      exact Timers.live_stop hlive
    · rw [h]
      exact hlive
  exact hlive'.designates (hi.trans_le hlive'.used)

end Haka
