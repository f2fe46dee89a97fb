import Haka.StateMachine.Timers

/-!
# State machine instances

An instance of a state machine is in one of its states, or in none before it starts and when it has
finished. States have callbacks, which may return the state to go to next. Entering and leaving a
state, a failure and the end of the machine call each other, and the callbacks, as deep as the stack
allows.

The answers of the callbacks are arbitrary, and may depend on all that has happened. To follow a NULL
pointer or an address that is not valid any more is a fault. Memory errors are left out, as is the
context of an instance, which is handed to the callbacks only.
-/

namespace Haka

/-- The kinds of transitions. -/
inductive Transition where
  | fail
  | enter
  | leave
  | init
  | finish
  | timeout (index : ℕ)
  deriving DecidableEq

/-- `struct state`: which callbacks it has, and the number of its timeouts, which always have one. -/
structure StateDef where
  has : Transition → Bool
  timeouts : ℕ

/-- `struct state_machine`. -/
structure StateMachine where
  states : ℕ → StateDef
  initial : ℕ

/-- What a callback returns: a state, `state_machine_fail_state` or `state_machine_finish_state`. -/
inductive Target where
  | state (s : ℕ)
  | fail
  | finish
  deriving DecidableEq

/-- What happens to an instance: a state is made the current one, and a callback of a state is
called. -/
inductive SmEvent where
  | entered (s : ℕ)
  | called (kind : Transition) (s : ℕ)
  deriving DecidableEq

/-- The environment of an operation: the answers of the callbacks after the events before, whether
`realloc` moves the timers, and how many updates made by callbacks fit on the stack. -/
structure Environment where
  answers : List SmEvent → Option Target
  moves : List SmEvent → Bool
  stack : ℕ

/-- `struct state_machine_instance`, with the events, the last one first. -/
structure Instance where
  current : Option ℕ
  timers : Timers
  inTransition : Bool
  finished : Bool
  failed : Bool
  inFailure : Bool
  log : List SmEvent

/-- A NULL pointer, an address that is not valid any more, an index out of bounds, or the end of the
stack. -/
inductive SmFault where
  | null
  | dangling
  | bounds
  | stack
  deriving DecidableEq

namespace Instance

/-- `state_machine_instance`. -/
def create (self : ℕ) : Instance := ⟨none, .create self, false, false, false, false, []⟩

section Operations

variable (m : StateMachine) (env : Environment)

def doTransition (c : Instance) (kind : Transition) (s : ℕ) : Instance × Option Target :=
  ({ c with log := .called kind s :: c.log }, env.answers (.called kind s :: c.log))

/-- `do_transition` if the state has the callback. -/
def haveTransition (c : Instance) (kind : Transition) (s : ℕ) : Instance × Option Target :=
  if (m.states s).has kind then doTransition env c kind s else (c, none)

/-- `state_machine_leave_state`. -/
def leaveState (c : Instance) : Instance × Option Target :=
  match c.current with
  | none => (c, none)
  | some s =>
    let (c, newstate) := haveTransition m env { c with timers := c.timers.stop } .leave s
    ({ c with current := none }, newstate)

/-- `state_machine_instance_finish`. -/
def instanceFinish (c : Instance) : Instance :=
  if c.finished then c
  else
    match c.current with
    | none => { c with finished := true }
    | some s => { (haveTransition m env (leaveState m env c).1 .finish s).1 with finished := true }

/-- `state_machine_instance_fail`. What the callback returns is ignored. -/
def instanceFail (c : Instance) : Instance :=
  if c.inFailure then c
  else if c.finished then c
  else
    let c := { c with failed := true, inFailure := true }
    let c := match c.current with
      | none => c
      | some s => (haveTransition m env c .fail s).1
    { instanceFinish m env c with inFailure := false }

/-- `state_machine_enter_state`, where `update` is `state_machine_instance_update`. -/
def enterState (update : Instance → Target → Except SmFault Instance) (c : Instance) (s : ℕ) :
    Except SmFault Instance :=
  let was := c.inTransition
  match leaveState m env { c with inTransition := true } with
  | (c, some target) => (update c target).map fun c => { c with inTransition := was }
  | (c, none) =>
    match haveTransition m env { c with current := some s, log := .entered s :: c.log } .enter s with
    | (c, some target) => (update c target).map fun c => { c with inTransition := was }
    | (c, none) =>
      .ok { c with
        timers := c.timers.start (env.moves c.log) (m.states s).timeouts, inTransition := was }

/-- `state_machine_instance_update`, as deep as the stack allows. -/
def instanceUpdate : ℕ → Instance → Target → Except SmFault Instance
  | 0, _, _ => .error .stack
  | n + 1, c, target =>
    if c.finished then .ok c
    else
      match target with
      | .fail => .ok (instanceFail m env c)
      | .finish => .ok (instanceFinish m env c)
      | .state s => enterState m env (instanceUpdate n) c s

/-- `state_machine_instance_init`. -/
def instanceInit (c : Instance) : Except SmFault Instance :=
  match enterState m env (instanceUpdate m env env.stack) c m.initial with
  | .error f => .error f
  | .ok c =>
    let c := { c with finished := false, failed := false, inFailure := false }
    match c.current with
    | none => .error .null
    | some s => .ok (haveTransition m env c .init s).1

/-- `transition_timeout`, with the data at the address `data`. -/
def transitionTimeout (c : Instance) (data : Address) : Except SmFault Instance :=
  match c.timers.vector.read data with
  | none => .error .dangling
  | some d =>
    if c.inTransition then .ok c
    else
      match c.current with
      | none => .error .null
      | some s =>
        if d.timerIndex < (m.states s).timeouts then
          match doTransition env c (.timeout d.timerIndex) s with
          | (c, none) => .ok c
          | (c, some target) => instanceUpdate m env env.stack c target
        else .error .bounds

end Operations

end Instance

/-! ## Runs -/

/-- What is done with an instance. A timer fires if it is armed. -/
inductive SmOp where
  | init
  | update (target : Target)
  | timeout (index : ℕ)
  | fail
  | finish

def Instance.perform (m : StateMachine) (env : Environment) (c : Instance) :
    SmOp → Except SmFault Instance
  | .init => instanceInit m env c
  | .update target => instanceUpdate m env (env.stack + 1) c target
  | .timeout i =>
    match c.timers.vector.elems[i]? with
    | none => .ok c
    | some d => if d.armed then transitionTimeout m env c d.data else .ok c
  | .fail => .ok (instanceFail m env c)
  | .finish => .ok (instanceFinish m env c)

def smStep (m : StateMachine) (r : Except SmFault Instance) (i : SmOp × Environment) :
    Except SmFault Instance × Unit :=
  (r.bind fun c => c.perform m i.2 i.1, ())

def finishes (log : List SmEvent) : List ℕ :=
  log.filterMap fun
    | .called .finish s => some s
    | _ => none

def lastCurrent (log : List SmEvent) : Option ℕ :=
  log.findSome? fun
    | .entered s => some s
    | _ => none

end Haka
