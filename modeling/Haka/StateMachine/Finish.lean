import Haka.StateMachine.Instance

/-!
# The end of a state machine

When an instance has finished it has no current state and no armed timer, the finish callback of its
last state was called once, and it stays so, as long as no leave callback sends the machine to its
end on the way to another state and the initial state is entered without reaching the end. A leave
callback that does so has already left its state, whose finish callback is then never called; an
instance whose initial state jumps to the end follows a NULL pointer.
-/

namespace Haka

open Machine

/-- A result that is not a fault, but for the end of the stack, meets `P`. -/
def Fine (P : Instance → Prop) : Except SmFault Instance → Prop
  | .ok c => P c
  | .error f => f = .stack

variable {r : Except SmFault Instance}

theorem Fine.mono {P Q : Instance → Prop} (h : Fine P r) (hPQ : ∀ c, P c → Q c) : Fine Q r := by
  cases r with
  | ok c => exact hPQ c h
  | error f => exact h

theorem Fine.map {P Q : Instance → Prop} {f : Instance → Instance}
    (h : Fine P r) (hf : ∀ c, P c → Q (f c)) : Fine Q (r.map f) := by
  cases r with
  | ok c => exact hf c h
  | error f => exact h

namespace Instance

/-- The machine has not finished, and its current state is the last one that was entered. -/
structure Running (c : Instance) : Prop where
  finished : c.finished = false
  finishes : finishes c.log = []
  laid : c.timers.Laid
  left : c.current = none → c.timers.Unarmed
  last : ∀ s, c.current = some s → lastCurrent c.log = some s

/-- The machine has finished. -/
structure Ended (m : StateMachine) (c : Instance) : Prop where
  finished : c.finished = true
  current : c.current = none
  unarmed : c.timers.Unarmed
  finishes : finishes c.log = (lastCurrent c.log).toList.filter fun s => (m.states s).has .finish

variable {m : StateMachine} {env : Environment} {c : Instance} {s : ℕ}

/-! ## Callbacks -/

theorem haveTransition_log (m : StateMachine) (env : Environment) (c : Instance) (kind : Transition)
    (hk : kind ≠ .finish) (s : ℕ) :
    ∃ log, (haveTransition m env c kind s).1 = { c with log := log } ∧
      finishes log = finishes c.log ∧ lastCurrent log = lastCurrent c.log ∧
      ∀ t, (haveTransition m env c kind s).2 = some t →
        ∃ log', env.answers (.called kind s :: log') = some t := by
  unfold haveTransition
  split_ifs
  · refine ⟨.called kind s :: c.log, rfl, ?_, rfl, fun t ht => ⟨c.log, ht⟩⟩
    cases kind with
    | finish => exact absurd rfl hk
    | _ => rfl
  · exact ⟨c.log, rfl, rfl, rfl, fun t ht => by cases ht⟩

theorem leaveState_log (m : StateMachine) (env : Environment) (hs : c.current = some s) :
    ∃ log, (leaveState m env c).1 = { c with timers := c.timers.stop, current := none, log := log } ∧
      finishes log = finishes c.log ∧ lastCurrent log = lastCurrent c.log ∧
      ∀ t, (leaveState m env c).2 = some t →
        ∃ log', env.answers (.called .leave s :: log') = some t := by
  obtain ⟨log, hlog, hf, hl, hans⟩ :=
    haveTransition_log m env { c with timers := c.timers.stop } .leave (by decide) s
  have hleave : leaveState m env c =
      ({ (haveTransition m env { c with timers := c.timers.stop } .leave s).1 with current := none },
        (haveTransition m env { c with timers := c.timers.stop } .leave s).2) := by
    unfold leaveState
    split
    next h0 => cases hs.symm.trans h0
    next s' h0 =>
      obtain rfl := Option.some.inj (hs.symm.trans h0)
      rfl
  rw [hleave]
  refine ⟨log, ?_, hf, hl, hans⟩
  rw [hlog]

theorem running_leaveState (h : Running c) (hs : c.current = some s) :
    Running (leaveState m env c).1 := by
  obtain ⟨log, hlog, hf, -, -⟩ := leaveState_log m env hs
  rw [hlog]
  exact ⟨h.finished, hf.trans h.finishes, Timers.laid_stop h.laid,
    fun _ i e he => Timers.unarmed_stop h.laid he, fun s hs => by cases hs⟩

/-! ## The end -/

def Fresh (c : Instance) : Prop := c.current = none → lastCurrent c.log = none

/-- **The end.** The timers are stopped and the finish callback of the current state is called. -/
theorem finish_ended (m : StateMachine) (env : Environment) (h : Running c) (hc : c.Fresh) :
    Ended m (instanceFinish m env c) ∧ (instanceFinish m env c).inTransition = c.inTransition ∧
    (instanceFinish m env c).inFailure = c.inFailure := by
  cases hs : c.current with
  | none =>
    have hfinish : instanceFinish m env c = { c with finished := true } := by
      unfold instanceFinish
      rw [if_neg (by simp [h.finished]), hs]
    rw [hfinish]
    refine ⟨⟨rfl, hs, h.left hs, ?_⟩, rfl, rfl⟩
    rw [h.finishes, hc hs]
    rfl
  | some s =>
    obtain ⟨log, hlog, hf, hl, -⟩ := leaveState_log m env hs
    have hlast : lastCurrent log = some s := hl.trans (h.last s hs)
    have hnil : Haka.finishes log = [] := hf.trans h.finishes
    have hun : c.timers.stop.Unarmed := fun i e he => Timers.unarmed_stop h.laid he
    have hfinish : instanceFinish m env c =
        { (haveTransition m env (leaveState m env c).1 .finish s).1 with finished := true } := by
      unfold instanceFinish
      rw [if_neg (by simp [h.finished])]
      split
      next h0 => cases hs.symm.trans h0
      next s' h0 => rw [Option.some.inj (hs.symm.trans h0)]
    rw [hfinish, hlog]
    unfold haveTransition
    by_cases hhas : (m.states s).has .finish = true
    · rw [if_pos hhas]
      refine ⟨⟨rfl, rfl, hun, ?_⟩, rfl, rfl⟩
      show s :: Haka.finishes log = (lastCurrent log).toList.filter _
      rw [hnil, hlast]
      simp [hhas]
    · rw [if_neg hhas]
      refine ⟨⟨rfl, rfl, hun, ?_⟩, rfl, rfl⟩
      rw [hnil, hlast]
      simp [hhas]

theorem fail_ended (m : StateMachine) (env : Environment) (h : Running c) (hi : c.inFailure = false)
    (hc : c.Fresh) :
    Ended m (instanceFail m env c) ∧ (instanceFail m env c).inTransition = c.inTransition ∧
    (instanceFail m env c).inFailure = false := by
  obtain ⟨log, hfail, hf, hl⟩ : ∃ log, instanceFail m env c =
      { instanceFinish m env { c with failed := true, inFailure := true, log := log } with
        inFailure := false } ∧ Haka.finishes log = Haka.finishes c.log ∧
      lastCurrent log = lastCurrent c.log := by
    unfold instanceFail
    rw [if_neg (by simp [hi]), if_neg (by simp [h.finished])]
    dsimp only
    split
    next h0 => exact ⟨c.log, rfl, rfl, rfl⟩
    next s h0 =>
      obtain ⟨log, hlog, hf, hl, -⟩ := haveTransition_log m env
        { c with failed := true, inFailure := true } .fail (by decide) s
      exact ⟨log, by rw [hlog], hf, hl⟩
  have hrun : Running { c with failed := true, inFailure := true, log := log } :=
    ⟨h.finished, hf.trans h.finishes, h.laid, h.left, fun s hs => hl.trans (h.last s hs)⟩
  obtain ⟨hend, htrans, -⟩ := finish_ended m env hrun fun h0 => hl.trans (hc h0)
  rw [hfail]
  exact ⟨⟨hend.finished, hend.current, hend.unarmed, hend.finishes⟩, htrans, rfl⟩

/-! ## Transitions -/

/-- The machine has a state whose timers are in use, or has not started. -/
structure Rests (m : StateMachine) (c : Instance) : Prop extends Running c where
  fresh : c.Fresh
  used : ∀ s, c.current = some s → c.timers.used = (m.states s).timeouts

/-- What holds between the operations. -/
structure Settled (m : StateMachine) (c : Instance) : Prop where
  inFailure : c.inFailure = false
  state : Rests m c ∨ Ended m c

def GoesOn (env : Environment) (kind : Transition) : Prop :=
  ∀ log s t, env.answers (.called kind s :: log) = some t → ∃ s', t = .state s'

theorem Running.setTransition (h : Running c) (b : Bool) : Running { c with inTransition := b } :=
  ⟨h.finished, h.finishes, h.laid, h.left, h.last⟩

theorem Settled.setTransition (h : Settled m c) (b : Bool) : Settled m { c with inTransition := b } :=
  ⟨h.inFailure, h.state.imp (fun h0 => ⟨h0.toRunning.setTransition b, h0.fresh, h0.used⟩) fun h0 =>
    ⟨h0.finished, h0.current, h0.unarmed, h0.finishes⟩⟩

theorem leaveState_spec (hleave : GoesOn env .leave) (h : Running c) :
    Running (leaveState m env c).1 ∧ (leaveState m env c).1.current = none ∧
    (leaveState m env c).1.inFailure = c.inFailure ∧
    ∀ t, (leaveState m env c).2 = some t → ∃ s', t = .state s' := by
  cases hs : c.current with
  | none =>
    have hsame : leaveState m env c = (c, none) := by
      unfold leaveState
      rw [hs]
    rw [hsame]
    exact ⟨h, hs, rfl, fun t ht => by cases ht⟩
  | some s =>
    obtain ⟨log, hlog, -, -, hans⟩ := leaveState_log m env hs
    refine ⟨running_leaveState h hs, by rw [hlog], by rw [hlog], fun t ht => ?_⟩
    obtain ⟨log', ht⟩ := hans t ht
    exact hleave log' s t ht

/-- What a transition leaves: the machine has a state unless a callback has sent it to its end. -/
structure Moved (m : StateMachine) (env : Environment) (target : Target) (c c' : Instance) : Prop where
  settled : Settled m c'
  inTransition : c'.inTransition = c.inTransition
  going : GoesOn env .enter → (∃ s, target = .state s) → c'.current ≠ none

theorem enterState_moved {update : Instance → Target → Except SmFault Instance}
    (hup : ∀ c t, Running c → c.inFailure = false → (∃ s', t = .state s') ∨ c.Fresh →
      Fine (Moved m env t c) (update c t))
    (hleave : GoesOn env .leave) (h : Running c) (hi : c.inFailure = false) (s : ℕ) :
    Fine (Moved m env (.state s) c) (enterState m env update c s) := by
  obtain ⟨h1, hcur, hi1, htarget⟩ := leaveState_spec hleave (h.setTransition true)
  unfold enterState
  generalize leaveState m env { c with inTransition := true } = l at h1 hcur hi1 htarget
  have hback : ∀ c1 t, (GoesOn env .enter → ∃ s', t = Target.state s') → ∀ c', Moved m env t c1 c' →
      Moved m env (.state s) c { c' with inTransition := c.inTransition } := fun c1 t ht c' h' =>
    ⟨h'.settled.setTransition _, rfl, fun hgo _ => h'.going hgo (ht hgo)⟩
  obtain ⟨c1, _ | t⟩ := l
  swap
  · have hstate := htarget t rfl
    exact (hup c1 t h1 (hi1.trans hi) (.inl hstate)).map (hback c1 t fun _ => hstate)
  dsimp only at h1 hcur hi1 ⊢
  -- the new state is the current one when its enter callback is called
  have h2 : Running { c1 with current := some s, log := .entered s :: c1.log } :=
    ⟨h1.finished, h1.finishes, h1.laid, fun h0 => (by cases h0), fun s' hs' => hs'⟩
  obtain ⟨log, hlog, hf, hl, hans⟩ := haveTransition_log m env
    { c1 with current := some s, log := .entered s :: c1.log } .enter (by decide) s
  have h3 : Running { c1 with current := some s, log := log } :=
    ⟨h1.finished, hf.trans h2.finishes, h1.laid, fun h0 => (by cases h0),
      fun s' hs' => hl.trans (h2.last s' hs')⟩
  generalize haveTransition m env { c1 with current := some s, log := .entered s :: c1.log } .enter s = e
    at hlog hans
  obtain ⟨c3, _ | t⟩ := e
  · obtain rfl : c3 = _ := hlog
    have hlaid : (c1.timers.start (env.moves log) (m.states s).timeouts).Laid :=
      Timers.laid_start h1.laid (h1.left hcur) _
    refine ⟨⟨hi1.trans hi, .inl ⟨⟨h1.finished, h3.finishes, hlaid, fun h0 => (by cases h0), h3.last⟩,
      fun h0 => (by cases h0), fun s' hs' => ?_⟩⟩, rfl, fun _ _ h0 => by cases h0⟩
    cases hs'
    rfl
  · obtain rfl : c3 = _ := hlog
    refine (hup _ t h3 (hi1.trans hi) (.inr fun h0 => by cases h0)).map (hback _ t fun hgo => ?_)
    obtain ⟨log', ht⟩ := hans t rfl
    exact hgo log' s t ht

theorem instanceUpdate_moved (hleave : GoesOn env .leave) (n : ℕ) (h : Running c)
    (hi : c.inFailure = false) (target : Target) (ht : (∃ s', target = .state s') ∨ c.Fresh) :
    Fine (Moved m env target c) (instanceUpdate m env n c target) := by
  induction n generalizing c target with
  | zero => exact rfl
  | succ n ih =>
    unfold instanceUpdate
    rw [if_neg (by simp [h.finished])]
    cases target with
    | state s => exact enterState_moved (fun c t h hi ht => ih h hi t ht) hleave h hi s
    | fail =>
      have hfresh := ht.resolve_left fun ⟨_, h0⟩ => by cases h0
      obtain ⟨hend, htrans, hfail⟩ := fail_ended m env h hi hfresh
      exact ⟨⟨hfail, .inr hend⟩, htrans, fun _ ⟨_, h0⟩ => by cases h0⟩
    | finish =>
      have hfresh := ht.resolve_left fun ⟨_, h0⟩ => by cases h0
      obtain ⟨hend, htrans, hfail⟩ := finish_ended m env h hfresh
      exact ⟨⟨hfail.trans hi, .inr hend⟩, htrans, fun _ ⟨_, h0⟩ => by cases h0⟩

/-! ## Operations -/

/-- The operations that keep the protocol: `init` comes first, once, and does not end the machine;
no leave callback ends it on the way to another state; and a timer that fires designates its
element. -/
def Keeps (c : Instance) (env : Environment) : SmOp → Prop
  | .init => c.log = [] ∧ c.finished = false ∧ GoesOn env .enter ∧ GoesOn env .leave
  | .update (.state _) => GoesOn env .leave
  | .timeout i => GoesOn env .leave ∧ c.timers.Designates i
  | _ => True

theorem perform_init (h : Settled m c) (hk : Keeps c env .init) :
    Fine (fun c' => Settled m c' ∧ c'.inTransition = c.inTransition) (instanceInit m env c) := by
  obtain ⟨hlog, hf, henter, hleave⟩ := hk
  have hrun : Rests m c := h.state.resolve_right fun h0 => by
    rw [h0.finished] at hf
    cases hf
  have hup : ∀ c t, Running c → c.inFailure = false → (∃ s', t = .state s') ∨ c.Fresh →
      Fine (Moved m env t c) (instanceUpdate m env env.stack c t) := fun c t h hi ht =>
    instanceUpdate_moved hleave env.stack h hi t ht
  have hmoved := enterState_moved hup hleave hrun.toRunning h.inFailure m.initial
  unfold instanceInit
  generalize enterState m env _ c m.initial = r at hmoved
  cases r with
  | error f => exact hmoved
  | ok c1 =>
    have hcur : c1.current ≠ none := hmoved.going henter ⟨_, rfl⟩
    have hrests : Rests m c1 := hmoved.settled.state.resolve_right fun h0 => hcur h0.current
    dsimp only
    split
    next h0 => exact absurd h0 hcur
    next s' h0 =>
      obtain ⟨log, hlog', hf', hl', -⟩ := haveTransition_log m env
        { c1 with finished := false, failed := false, inFailure := false } .init (by decide) s'
      rw [hlog']
      exact ⟨⟨rfl, .inl ⟨⟨rfl, hf'.trans hrests.finishes, hrests.laid, hrests.left,
        fun s hs => hl'.trans (hrests.last s hs)⟩, fun h1 => hl'.trans (hrests.fresh h1), hrests.used⟩⟩,
        hmoved.inTransition⟩

theorem perform_timeout (h : Settled m c) {i : ℕ} (hk : Keeps c env (.timeout i))
    (ht : c.inTransition = false) :
    Fine (fun c' => Settled m c' ∧ c'.inTransition = c.inTransition) (c.perform m env (.timeout i)) := by
  obtain ⟨hleave, e, e', he, hindex, hread, htimer, -⟩ := hk
  unfold perform
  dsimp only
  rw [he]
  dsimp only
  by_cases ha : e.armed = true
  swap
  · rw [if_neg ha]
    exact ⟨h, rfl⟩
  rw [if_pos ha]
  rcases h.state with hrests | hend
  swap
  · exact absurd (hend.unarmed i e he) (by simp [ha])
  cases hs : c.current with
  | none => exact absurd (hrests.left hs i e he) (by simp [ha])
  | some s =>
    have hlt : e'.timerIndex < (m.states s).timeouts := by
      rw [htimer, ← hrests.used s hs]
      exact hrests.laid.armed i e he ha
    unfold transitionTimeout
    rw [hread]
    dsimp only
    rw [if_neg (by simp [ht])]
    split
    next h0 => cases hs.symm.trans h0
    next s' h0 =>
      obtain rfl := Option.some.inj (hs.symm.trans h0)
      rw [if_pos hlt]
      have hrun : Running { c with log := .called (.timeout e'.timerIndex) s :: c.log } :=
        ⟨hrests.finished, hrests.finishes, hrests.laid, hrests.left, hrests.last⟩
      have hfresh : Fresh { c with log := .called (.timeout e'.timerIndex) s :: c.log } := fun h0 =>
        hrests.fresh h0
      unfold doTransition
      cases env.answers (.called (.timeout e'.timerIndex) s :: c.log) with
      | none => exact ⟨⟨h.inFailure, .inl ⟨hrun, hfresh, hrests.used⟩⟩, rfl⟩
      | some t =>
        exact (instanceUpdate_moved hleave env.stack hrun h.inFailure t (.inr hfresh)).mono
          fun c' h' => ⟨h'.settled, h'.inTransition⟩

variable {op : SmOp}

theorem perform_ended (h : Ended m c) (hi : c.inFailure = false) (hop : op ≠ .init) :
    c.perform m env op = .ok c := by
  cases op with
  | init => exact absurd rfl hop
  | update target =>
    show instanceUpdate m env (env.stack + 1) c target = .ok c
    unfold instanceUpdate
    rw [if_pos h.finished]
  | timeout i =>
    unfold perform
    dsimp only
    split
    next => rfl
    next d hd => rw [if_neg (by simp [h.unarmed i d hd])]
  | fail =>
    show Except.ok (instanceFail m env c) = .ok c
    unfold instanceFail
    rw [if_neg (by simp [hi]), if_pos h.finished]
  | finish =>
    show Except.ok (instanceFinish m env c) = .ok c
    unfold instanceFinish
    rw [if_pos h.finished]

theorem perform_settled (h : Settled m c) (ht : c.inTransition = false) (hk : Keeps c env op) :
    Fine (fun c' => Settled m c' ∧ c'.inTransition = false) (c.perform m env op) := by
  rw [← ht]
  cases op with
  | init => exact perform_init h hk
  | timeout i => exact perform_timeout h hk ht
  | update target =>
    rcases h.state with hrests | hend
    · cases target with
      | state s =>
        exact (instanceUpdate_moved hk (env.stack + 1) hrests.toRunning h.inFailure _ (.inl ⟨s, rfl⟩)).mono
          fun c' h' => ⟨h'.settled, h'.inTransition⟩
      | fail =>
        obtain ⟨hend, htrans, hi⟩ := fail_ended m env hrests.toRunning h.inFailure hrests.fresh
        show Fine _ (instanceUpdate m env (env.stack + 1) c .fail)
        unfold instanceUpdate
        rw [if_neg (by simp [hrests.finished])]
        exact ⟨⟨hi, .inr hend⟩, htrans⟩
      | finish =>
        obtain ⟨hend, htrans, hi⟩ := finish_ended m env hrests.toRunning hrests.fresh
        show Fine _ (instanceUpdate m env (env.stack + 1) c .finish)
        unfold instanceUpdate
        rw [if_neg (by simp [hrests.finished])]
        exact ⟨⟨hi.trans h.inFailure, .inr hend⟩, htrans⟩
    · rw [perform_ended hend h.inFailure (by simp)]
      exact ⟨h, rfl⟩
  | fail =>
    rcases h.state with hrests | hend
    · obtain ⟨hend, htrans, hi⟩ := fail_ended m env hrests.toRunning h.inFailure hrests.fresh
      exact ⟨⟨hi, .inr hend⟩, htrans⟩
    · rw [perform_ended hend h.inFailure (by simp)]
      exact ⟨h, rfl⟩
  | finish =>
    rcases h.state with hrests | hend
    · obtain ⟨hend, htrans, hi⟩ := finish_ended m env hrests.toRunning hrests.fresh
      exact ⟨⟨hi.trans h.inFailure, .inr hend⟩, htrans⟩
    · rw [perform_ended hend h.inFailure (by simp)]
      exact ⟨h, rfl⟩

end Instance

/-! ## Runs -/

def SmKeeps (r : Except SmFault Instance) (i : SmOp × Environment) : Prop :=
  ∀ c, r = .ok c → c.Keeps i.2 i.1

theorem settled_step (m : StateMachine) (r : Except SmFault Instance) (i : SmOp × Environment)
    (h : Fine (fun c => c.Settled m ∧ c.inTransition = false) r) (hk : SmKeeps r i) :
    Fine (fun c => c.Settled m ∧ c.inTransition = false) (smStep m r i).1 := by
  cases r with
  | error f => exact h
  | ok c => exact Instance.perform_settled h.1 h.2 (hk c rfl)

theorem settled_create (m : StateMachine) (self : ℕ) :
    Fine (fun c => c.Settled m ∧ c.inTransition = false) (.ok (.create self)) :=
  ⟨⟨rfl, .inl ⟨⟨rfl, rfl, (Timers.live_create self).toLaid, fun _ _ _ h => (by cases h),
    fun _ h => (by cases h)⟩, fun _ => rfl, fun _ h => (by cases h)⟩⟩, rfl⟩

theorem ended_run {m : StateMachine} {c : Instance} (h : c.Ended m) (hi : c.inFailure = false)
    {is : List (SmOp × Environment)} (hg : Guarded (smStep m) SmKeeps (.ok c) is) :
    (run (smStep m) (.ok c) is).1 = .ok c := by
  induction is with
  | nil => rfl
  | cons i is ih =>
    have hop : i.1 ≠ .init := fun h0 => by
      have hk := hg.1 c rfl
      rw [h0] at hk
      exact absurd (h.finished.symm.trans hk.2.1) (by decide)
    have hstep : (smStep m (.ok c) i).1 = .ok c := Instance.perform_ended h hi hop
    have htail := hg.2
    rw [hstep] at htail
    rw [run_cons, hstep]
    exact ih htail

/-- **Finished for ever.** In every run in which neither `init` nor a leave callback on the way to
another state ends the machine, the only fault is the end of the stack. Once the instance has
finished it has no state and no armed timer, of the finish callbacks only that of its last state was
called, once, and it stays as it is. -/
theorem finished_for_ever (m : StateMachine) (self : ℕ) (is js : List (SmOp × Environment))
    (hg : Guarded (smStep m) SmKeeps (.ok (.create self)) (is ++ js)) :
    (∀ f, (run (smStep m) (.ok (.create self)) (is ++ js)).1 = .error f → f = .stack) ∧
    ∀ c, (run (smStep m) (.ok (.create self)) is).1 = .ok c → c.finished = true →
      c.current = none ∧ c.timers.Unarmed ∧
      finishes c.log = (lastCurrent c.log).toList.filter (fun s => (m.states s).has .finish) ∧
      (run (smStep m) (.ok (.create self)) (is ++ js)).1 = .ok c := by
  refine ⟨fun f hf => ?_, fun c hc hfin => ?_⟩
  · have hall := run_invariant (settled_step m) (settled_create m self) hg
    rw [hf] at hall
    exact hall
  · obtain ⟨his, hjs⟩ := (guarded_append _ _ _).1 hg
    have hinv := run_invariant (settled_step m) (settled_create m self) his
    rw [hc] at hinv hjs
    have hend : c.Ended m := hinv.1.state.resolve_left fun h0 =>
      absurd (hfin.symm.trans h0.finished) (by decide)
    refine ⟨hend.current, hend.unarmed, hend.finishes, ?_⟩
    rw [run_append, hc]
    exact ended_run hend hinv.1.inFailure hjs

def twoStates : StateMachine := ⟨fun _ => ⟨fun _ => true, 1⟩, 0⟩

/-- Callbacks that answer `answer` to the transition `kind`, and nothing to others. -/
def answering (kind : Transition) (answer : Target) : Environment where
  answers
    | .called k _ :: _ => if k = kind then some answer else none
    | _ => none
  moves _ := false
  stack := 2

theorem goesOn_answering {kind k : Transition} (answer : Target) (h : k ≠ kind) :
    Instance.GoesOn (answering kind answer) k := fun log s t ht => by
  have hnone : (answering kind answer).answers (.called k s :: log) = none := if_neg h
  cases hnone.symm.trans ht

/-- A machine is started, goes to state 1 on a timeout, fails, and is told to go on. -/
def failedRun : List (SmOp × Environment) :=
  [(.init, answering .fail .fail), (.timeout 0, answering (.timeout 0) (.state 1)),
    (.fail, answering .leave .finish)]

theorem finished_for_ever_failed :
    (run (smStep twoStates) (.ok (.create 0)) failedRun).1.toOption.map Instance.finished = some true ∧
    (∀ f, (run (smStep twoStates) (.ok (.create 0))
      (failedRun ++ [(.update (.state 0), answering .fail .fail)])).1 = .error f → f = .stack) ∧
    ∀ c, (run (smStep twoStates) (.ok (.create 0)) failedRun).1 = .ok c → c.finished = true →
      c.current = none ∧ c.timers.Unarmed ∧
      finishes c.log = (lastCurrent c.log).toList.filter (fun s => (twoStates.states s).has .finish) ∧
      (run (smStep twoStates) (.ok (.create 0))
        (failedRun ++ [(.update (.state 0), answering .fail .fail)])).1 = .ok c := by
  refine ⟨by decide +kernel, finished_for_ever twoStates 0 _ _ ⟨fun c hc => ?_, fun c hc => ?_, fun c hc => ?_,
    fun c hc => ?_, trivial⟩⟩
  · cases hc
    exact ⟨rfl, rfl, goesOn_answering _ (by decide), goesOn_answering _ (by decide)⟩
  · cases hc
    exact ⟨goesOn_answering _ (by decide), _, _, rfl, rfl, rfl, rfl, rfl⟩
  · trivial
  · exact goesOn_answering _ (by decide)

/-- If the enter callback of the initial state ends the machine, `init` follows a NULL pointer. If a
leave callback does on the way to state 1, the finish callback of state 0 is not called. -/
theorem finish_skipped :
    (run (smStep twoStates) (.ok (.create 0)) [(.init, answering .enter .finish)]).1 = .error .null ∧
    (run (smStep twoStates) (.ok (.create 0)) [(.init, answering .fail .fail),
      (.update (.state 1), answering .leave .finish)]).1.toOption.map
        (fun c => (c.finished, lastCurrent c.log, finishes c.log)) = some (true, some 0, []) :=
  ⟨rfl, by decide +kernel⟩

end Haka
