import Mathlib.Data.Rat.Defs
import Haka.Lib.LuaTable
import Haka.StateMachine.Instance

/-!
# Actions of state machines

State machines are defined in Lua. Actions are registered for the events of a state, or on `any` for
all states. The compilation hands the actions of `any` down to the states and gives each state its
callbacks: for an event the actions in the order of their registration, of which the first one whose
guard holds is run, and for a timeout the action that the table of timeouts has at its duration.

A definition is what the definition function leaves behind: the calls of `on`, all of them accepted,
and the names of the states. A jump is kept as the name that its state has at the registration. The
callbacks see and change a state `σ`; guards only read it. The names of events are taken to be
different from the fields that a compiled state has of its own.
-/

namespace Haka

/-- An error of a callback: `haka.abort`, or an error with a message. -/
inductive LuaError where
  | abort
  | message (text : String)
  deriving DecidableEq

/-- An event of a state machine: `events.name`, or `events.timeout(secs)`. -/
inductive Event where
  | named (name : String)
  | timeout (secs : ℚ)
  deriving DecidableEq

/-- An action, as it is kept for an event. -/
structure StateAction (σ : Type) where
  when : Option (σ → Bool)
  execute : Option (σ → σ × Option LuaError)
  jump : Option String

/-- The argument of `on`: an action and its events. -/
structure Registration (σ : Type) where
  action : StateAction σ
  events : List Event

/-- `ActionCollection`: the actions of each event, and the ones of the timeouts by duration. -/
structure ActionCollection (σ : Type) where
  const : Bool
  actions : AList fun _ : String => List (StateAction σ)
  timeouts : Lua.Table ℚ (StateAction σ)

variable {σ : Type}

namespace ActionCollection

/-- `ActionCollection:new`. -/
def create (const : Bool) : ActionCollection σ := ⟨const, ∅, ∅⟩

/-- `ActionCollection:on` for one event. -/
def onEvent (a : StateAction σ) (c : ActionCollection σ) :
    Event → Except LuaError (ActionCollection σ)
  | .timeout secs => .ok { c with timeouts := c.timeouts.insert secs a }
  | .named name =>
    -- `events.timeouts` has no duration
    if name = "timeouts" then .error (.message "table index is nil")
    else
      match c.actions.lookup name with
      | some l => .ok { c with actions := c.actions.insert name (l ++ [a]) }
      | none =>
        if c.const then .error (.message s!"unknown event '{name}'")
        else .ok { c with actions := c.actions.insert name [a] }

def on (c : ActionCollection σ) (r : Registration σ) : Except LuaError (ActionCollection σ) :=
  if r.action.execute.isNone && r.action.jump.isNone then
    .error (.message "action must have either an execute or a jump")
  else r.events.foldlM (onEvent r.action) c

/-- `ActionCollection:_register_events` for one event. An event that is there is only warned of. -/
def registerEvent (c : ActionCollection σ) (event : String) : ActionCollection σ :=
  if event = "timeouts" ∨ event ∈ c.actions then c
  else { c with actions := c.actions.insert event [] }

def registerEvents (c : ActionCollection σ) (events : List String) : ActionCollection σ :=
  events.foldl registerEvent c

/-- `State:setdefaults` for the actions of one event. -/
def setdefault (c : ActionCollection σ) (e : Sigma fun _ : String => List (StateAction σ)) :
    ActionCollection σ :=
  match c.actions.lookup e.1 with
  | none => c
  | some l => { c with actions := c.actions.insert e.1 (l ++ e.2) }

def setdefaults (len : Lua.Length ℚ (StateAction σ)) (c defaults : ActionCollection σ) :
    ActionCollection σ :=
  defaults.actions.entries.foldl setdefault
    { c with timeouts := c.timeouts.append len defaults.timeouts }

end ActionCollection

/-- `State._events`. -/
def stateEvents : List String := ["fail", "enter", "leave", "init", "finish"]

/-- `State:new`, with the events of its class and of the classes between it and `State`. -/
def ActionCollection.state (classes : List (List String)) : ActionCollection σ :=
  (classes ++ [stateEvents]).foldl registerEvents (create true)

/-- A state and the calls of `on` that were made on it, all of which were accepted. -/
structure StateObject (σ : Type) where
  classes : List (List String)
  calls : List (Registration σ)
  collection : ActionCollection σ
  accepted : calls.foldlM ActionCollection.on (.state classes) = .ok collection

def reservedNames : List String :=
  ["state_type", "initial", "state", "finish", "fail", "any", "events"]

/-- `StateMachine` before it is compiled. -/
structure Definition (σ : Type) where
  /-- The calls of `any:on`. -/
  calls : List (Registration σ)
  defaults : ActionCollection σ
  accepted : calls.foldlM ActionCollection.on (.create false) = .ok defaults
  objects : ℕ → StateObject σ
  /-- `_states`, in the order of `pairs`. -/
  states : AList fun _ : String => ℕ
  unreserved : ∀ name ∈ states, name ∉ reservedNames
  initial : Option ℕ

/-- `CompiledState`. The list of an event is the one of the state, to which the compilation of
another name of the same state may add. A timeout has a list of its own. -/
structure CompiledState (σ : Type) where
  name : String
  object : ℕ
  timeouts : List (ℚ × List (StateAction σ))

/-- A compiled `StateMachine`: the states as they are after the compilation, `_state_table`, and the
initial state. -/
structure CompiledMachine (σ : Type) where
  objects : ℕ → ActionCollection σ
  states : List (CompiledState σ)
  initial : ℕ

/-- The timeouts of a `CompiledState`: each with a list of one action. -/
def ActionCollection.timers (c : ActionCollection σ) : List (ℚ × List (StateAction σ)) :=
  c.timeouts.entries.map fun e => (e.1, [e.2])

/-- The loop of `StateMachine:compile`. -/
def compileStates (len : Lua.Length ℚ (StateAction σ)) (defaults : ActionCollection σ) :
    List (Sigma fun _ : String => ℕ) → (ℕ → ActionCollection σ) →
      List (CompiledState σ) × (ℕ → ActionCollection σ)
  | [], objects => ([], objects)
  | ⟨name, o⟩ :: rest, objects =>
    let c := (objects o).setdefaults len defaults
    let (states, objects) := compileStates len defaults rest (Function.update objects o c)
    (⟨name, o, c.timers⟩ :: states, objects)

namespace Definition

def compile (len : Lua.Length ℚ (StateAction σ)) (d : Definition σ) :
    Except LuaError (CompiledMachine σ) :=
  match d.initial with
  | none => .error (.message "state machine must have an initial state")
  | some o =>
    let r := compileStates len d.defaults d.states.entries fun o => (d.objects o).collection
    match r.1.findIdx? fun c => c.object = o with
    | none => .error (.message "state machine has an unknown initial state")
    | some i => .ok ⟨r.2, r.1, i⟩

end Definition

namespace CompiledMachine

def stateTable (m : CompiledMachine σ) (name : String) : Option Target :=
  if name = "initial" then some (.state m.initial)
  else if name = "fail" then some .fail
  else if name = "finish" then some .finish
  else (m.states.findIdx? fun c => c.name = name).map .state

end CompiledMachine

def StateAction.holds (a : StateAction σ) (x : σ) : Bool :=
  match a.when with
  | none => true
  | some when => when x

def StateAction.run (a : StateAction σ) (x : σ) : σ × Option LuaError :=
  match a.execute with
  | none => (x, none)
  | some execute => execute x

/-- The body of `transitions_wrapper` for an action that may run. -/
def StateAction.perform (table : String → Option Target) (a : StateAction σ) (x : σ) :
    σ × Except LuaError (Option Target) :=
  match a.run x with
  | (x, some e) => (x, .error e)
  | (x, none) =>
    match a.jump with
    | none => (x, .ok none)
    | some name =>
      match table name with
      | none => (x, .error (.message s!"unknown state '{name}'"))
      | some target => (x, .ok (some target))

def transitionsWrapper (table : String → Option Target) :
    List (StateAction σ) → σ → σ × Except LuaError (Option Target)
  | [], x => (x, .ok none)
  | a :: actions, x =>
    if a.holds x then a.perform table x else transitionsWrapper table actions x

/-- `lua_transition_callback`: an abort ends the machine, and any other error makes it fail. -/
def transitionCallback : Except LuaError (Option Target) → Option Target
  | .ok target => target
  | .error .abort => some .finish
  | .error (.message _) => some .fail

/-- What becomes of the instance when an event was triggered: it stays in its state, it is updated
with a state, or an error is raised. -/
inductive Effect where
  | stays
  | updates (target : Target)
  | raises (e : LuaError)
  deriving DecidableEq

def Transition.updates : Transition → Bool
  | .enter | .leave | .timeout _ => true
  | .fail | .init | .finish => false

def Effect.ofCallback (kind : Transition) : Option Target → Effect
  | none => .stays
  | some target => if kind.updates then .updates target else .stays

/-- The effect of `trigger`. -/
def Effect.ofTrigger : Except LuaError (Option Target) → Effect
  | .ok none => .stays
  | .ok (some target) => .updates target
  | .error e => .raises e

def transitionOf : String → Option Transition
  | "fail" => some .fail
  | "enter" => some .enter
  | "leave" => some .leave
  | "init" => some .init
  | "finish" => some .finish
  | _ => none

/-- The effect of an event, after `transitions_wrapper`. -/
def Effect.of (name : String) (r : Except LuaError (Option Target)) : Effect :=
  match transitionOf name with
  | some kind => .ofCallback kind (transitionCallback r)
  | none => .ofTrigger r

namespace CompiledMachine

/-- The event of a name is triggered in the state at `s`: by the engine, or by
`StateMachineInstance:trigger`. -/
def fire (m : CompiledMachine σ) (s : ℕ) (name : String) (x : σ) : σ × Effect :=
  match m.states[s]? with
  | none => (x, .raises (.message "state machine instance has finished"))
  | some c =>
    match (m.objects c.object).actions.lookup name with
    | none => (x, .raises (.message s!"no event named '{name}' on state '{c.name}'"))
    | some actions =>
      let r := transitionsWrapper m.stateTable actions x
      (r.1, .of name r.2)

/-- The timer `i` of the state at `s` fires. -/
def fireTimeout (m : CompiledMachine σ) (s i : ℕ) (x : σ) : σ × Effect :=
  match m.states[s]?.bind fun c => c.timeouts[i]? with
  | none => (x, .stays)
  | some t =>
    let r := transitionsWrapper m.stateTable t.2 x
    (r.1, .ofCallback (.timeout i) (transitionCallback r.2))

end CompiledMachine

end Haka
