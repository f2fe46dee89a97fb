import Haka.Lib.Program
import Haka.Tcp.Stream

/-!
# TCP connections

The dissector `tcp_connection` follows a connection with a state machine. Each state has a list of
actions, tried in order, then come those of `any`. An action may push the packet into the TCP
stream of its direction, where the rules and the next dissector see its data, or forward it.

Rules and dissectors are arbitrary. What they do when they are called is read from a script of
reactions, which ends a call with `ret`; it may call the methods of the connection, which may call
rules again. The policies have their default action; for a packet that is not expected it raises an
error, since `haka.policy.alert()` goes through `pairs(nil)` before the packet is dropped. Rules that
drop single packets, the statistics and the alerts are left out.
-/

namespace Haka

open Program

/-! ## The state machine -/

/-- The direction of a packet, from the side that opened the connection or to it. -/
inductive Direction where
  | up
  | down
  deriving DecidableEq

/-- `haka.dissector.opposite_direction`. -/
def Direction.opposite : Direction → Direction
  | up => down
  | down => up

/-- The states of the machine. -/
inductive TcpState where
  | reset
  | syn
  | synSent
  | synReceived
  | established
  | finWait1
  | finWait2
  | closing
  | timedWait
  deriving DecidableEq

def TcpState.hasTimeout : TcpState → Bool
  | reset | timedWait => true
  | _ => false

/-- The events a packet triggers. -/
inductive TcpEvent where
  | input
  | output
  | reset
  deriving DecidableEq

/-- The fields `input` and `output` of a connection. -/
inductive Role where
  | input
  | output
  deriving DecidableEq

/-- The bodies of the actions. -/
inductive Execute where
  | nothing
  | unexpectedPacket
  | invalidHandshake
  | send (dir : Role)
  | forward
  | push (dir : Role) (finish : Bool)
  | pushSwap
  | dofinish
  | sendpkt (dir : Role)
  | restart

/-- Where an action jumps. -/
inductive Jump where
  | state (s : TcpState)
  | fail
  | finish

/-- An action: the events it is for, its guard, its body and its jump. -/
structure Action where
  events : List TcpEvent
  guard : TcpFlags → Bool := fun _ => true
  execute : Execute
  jump : Option Jump := none

/-- The actions of `any` for the events of packets. -/
def anyActions : List Action :=
  [{ events := [.reset], execute := .nothing, jump := some (.state .reset) },
    { events := [.input, .output], execute := .unexpectedPacket, jump := some .fail }]

/-- The actions of a state for the events of packets, in the order of their registration. -/
def stateActions : TcpState → List Action
  | .reset => []
  | .syn =>
    [{ events := [.input], guard := (·.syn), execute := .send .input, jump := some (.state .synSent) },
      { events := [.input], execute := .invalidHandshake, jump := some .fail }]
  | .synSent =>
    [{ events := [.output], guard := fun f => f.syn && f.ack, execute := .send .output,
        jump := some (.state .synReceived) },
      { events := [.input], guard := (·.syn), execute := .forward },
      { events := [.output, .input], execute := .invalidHandshake, jump := some .fail }]
  | .synReceived =>
    [{ events := [.input], guard := (·.ack), execute := .push .input false,
        jump := some (.state .established) },
      { events := [.input], guard := (·.fin), execute := .push .input false,
        jump := some (.state .finWait1) },
      { events := [.output], guard := fun f => f.syn && f.ack, execute := .push .output false },
      { events := [.input, .output], execute := .invalidHandshake, jump := some .fail }]
  | .established =>
    [{ events := [.input], guard := (·.fin), execute := .push .input true,
        jump := some (.state .finWait1) },
      { events := [.input], execute := .push .input false },
      { events := [.output], guard := (·.fin), execute := .pushSwap, jump := some (.state .finWait1) },
      { events := [.output], execute := .push .output false }]
  | .finWait1 =>
    [{ events := [.output], guard := fun f => f.fin && f.ack, execute := .dofinish,
        jump := some (.state .closing) },
      { events := [.output], guard := (·.fin), execute := .dofinish,
        jump := some (.state .timedWait) },
      { events := [.output], guard := (·.ack), execute := .push .output true,
        jump := some (.state .finWait2) },
      { events := [.output], execute := .invalidHandshake, jump := some .fail },
      { events := [.input], guard := fun f => f.fin && f.ack, execute := .sendpkt .input,
        jump := some (.state .closing) },
      { events := [.input], execute := .sendpkt .input }]
  | .finWait2 =>
    [{ events := [.output], guard := (·.fin), execute := .sendpkt .output,
        jump := some (.state .timedWait) },
      { events := [.output], guard := (·.ack), execute := .sendpkt .output },
      { events := [.input], guard := (·.ack), execute := .sendpkt .input },
      { events := [.output, .input], execute := .invalidHandshake, jump := some .fail }]
  | .closing =>
    [{ events := [.input], guard := (·.ack), execute := .sendpkt .input,
        jump := some (.state .timedWait) },
      { events := [.input], guard := (!·.fin), execute := .invalidHandshake, jump := some .fail },
      { events := [.input], execute := .sendpkt .input },
      { events := [.output], guard := (!·.ack), execute := .invalidHandshake, jump := some .fail },
      { events := [.output], execute := .sendpkt .output }]
  | .timedWait =>
    [{ events := [.input], guard := (·.syn), execute := .restart, jump := some .finish },
      { events := [.input, .output], guard := (!·.ack), execute := .invalidHandshake,
        jump := some .fail },
      { events := [.input], execute := .sendpkt .input },
      { events := [.output], execute := .sendpkt .output }]

/-- `transitions_wrapper`: the first action for the event whose guard holds, those of the state
before those of `any`. -/
def findAction (s : TcpState) (event : TcpEvent) (flags : TcpFlags) : Option Action :=
  (stateActions s ++ anyActions).find? fun a => decide (event ∈ a.events) && a.guard flags

/-! ## The connection -/

/-- What a rule or a dissector may do when it is called. -/
inductive Reaction where
  | ret
  | skip
  | send (direction : Option Direction)
  | drop
  | reset
  | halfreset
  | edit (direction : Direction) (heap : Heap) (data : Vbuffer)
  | error
  | abort

/-- What is seen of a connection: a packet pushed into a stream, a packet forwarded, and the event
`end_connection`. -/
inductive ConnEvent where
  | pushed (direction : Direction) (address : ℕ)
  | sent (direction : Direction) (tcp : Tcp)
  | endConnection

/-- The entry of the connection table. -/
inductive CnxEntry where
  | absent
  | live
  | dropped
  deriving DecidableEq

/-- A Lua error, or `haka.abort`. -/
inductive Raised where
  | error
  | abort
  deriving DecidableEq

/-- A `tcp_connection` with its entry in the table and its state machine instance: `parent` and
`hasState` say whether `_parent` and `_state` are set, `current` is the state and `armed` says
whether its timer runs. The log has the last event first. -/
structure TcpConnection where
  heap : Heap
  cnx : CnxEntry
  parent : Bool
  hasState : Bool
  current : Option TcpState
  finished : Bool
  inFailure : Bool
  armed : Bool
  input : Direction
  output : Direction
  stream : Option (Direction → TcpStream)
  established : Bool
  restart : Bool
  nextDissector : Bool
  log : List ConnEvent
  script : List Reaction

abbrev ConnM := Program Raised TcpConnection

namespace TcpConnection

/-- `self[dir]`. -/
def role (c : TcpConnection) : Role → Direction
  | .input => c.input
  | .output => c.output

def setStream (c : TcpConnection) (direction : Direction) (s : TcpStream) : TcpConnection :=
  { c with stream := c.stream.map fun st => Function.update st direction s }

def canContinue (c : TcpConnection) : Bool := c.stream.isSome

def clearstream : ConnM Unit := modify fun c => { c with stream := none }

def _close : ConnM Unit := do
  clearstream
  modify fun c => if c.parent then { c with parent := false, cnx := .absent } else c
  modify fun c => { c with hasState := false }

/-- `_forgereset`, which fails without stream. -/
def _forgereset (direction : Direction) : ConnM Tcp := do
  let c ← get
  match c.stream with
  | none => throw .error
  | some st =>
    pure ⟨c.heap.next, true, true, { rst := true }, tcpStreamLastseq (st direction), 0,
      ⟨[], endChunk c.heap.next true⟩⟩

/-! ## Calls of rules and of the next dissector

The functions below take `react`, the code of whoever is called. -/

section Methods

variable (react : ConnM Unit)

/-- `trigger` of an event: the listeners run, if there are any, and `continue` aborts if the emitter
of the event cannot continue. -/
def signal (canContinue : TcpConnection → Bool) : ConnM Unit := do
  let c ← get
  if !c.script.isEmpty then do
    react
    let c ← get
    if !canContinue c then throw .abort

/-- `pkt:send`, with the event `send_packet`. It forwards the packet unless it was dropped. -/
def sendPacket (direction : Direction) (tcp : Tcp) : ConnM Unit := do
  signal react fun _ => tcp.packet
  modify fun c => if tcp.packet then { c with log := .sent direction tcp :: c.log } else c

/-- One turn of the loop of `_send`; false when no packet is left to pop. -/
def sendOne (direction : Direction) : ConnM Bool := do
  let c ← get
  match c.stream with
  | none => pure false
  | some st =>
    match tcpStreamPop c.heap (st direction) with
    | (heap, s, none) => do
      modify fun c => { c.setStream direction s with heap := heap }
      pure false
    | (heap, s, some tcp) => do
      modify fun c => { c.setStream direction s with heap := heap }
      sendPacket react direction (tcpStreamAck (st direction.opposite) tcp)
      pure true

/-- The loop of `_send`, which pops at most the packets of `current`. -/
def sendLoop (direction : Direction) : ℕ → ConnM Unit
  | 0 => pure ()
  | n + 1 => do
    if ← sendOne react direction then sendLoop direction n

def _send (direction : Direction) : ConnM Unit := do
  let c ← get
  match c.stream with
  | none => pure ()
  | some st => sendLoop react direction ((st direction).current.length + 1)

def send : Option Direction → ConnM Unit
  | none => do
    _send react .up
    _send react .down
  | some direction => _send react direction

def _sendpkt (pkt : Tcp) (direction : Direction) : ConnM Unit := do
  send react (some direction)
  let c ← get
  match c.stream with
  | none => pure ()
  | some st =>
    sendPacket react direction (tcpStreamAck (st direction.opposite) (tcpStreamSeq (st direction) pkt))

/-- `trigger` of `end_connection`. -/
def endConnection : ConnM Unit := do
  modify fun c => { c with log := .endConnection :: c.log }
  signal react canContinue

def finishAction : TcpState → ConnM Unit
  | .reset => _close
  | .timedWait => _close
  | _ => do
    endConnection react
    _close

/-- The enter action of a state. -/
def enterAction : TcpState → ConnM Unit
  | .reset => do
    endConnection react
    clearstream
    let c ← get
    if c.parent then modify fun c => { c with cnx := .dropped } else throw .error
  | .established => modify fun c => { c with established := true }
  | .timedWait => endConnection react
  | _ => pure ()

/-- `state_machine_instance_finish`; an exception of the finish action is caught. -/
def instanceFinish : ConnM Unit := do
  let c ← get
  if c.finished then throw .error
  else
    match c.current with
    | none => modify fun c => { c with finished := true }
    | some s => do
      modify fun c => { c with current := none, armed := false }
      tryCatch (finishAction react s) fun _ => pure ()
      modify fun c => { c with finished := true }

/-- `state_machine_instance_fail`. The jump of the fail action of `any` is ignored. -/
def instanceFail : ConnM Unit := do
  let c ← get
  if c.inFailure then pure ()
  else if c.finished then throw .error
  else do
    modify fun c => { c with inFailure := true }
    instanceFinish react
    modify fun c => { c with inFailure := false }

/-- `state_machine_enter_state`; an error of the enter action is a failure, an abort finishes. The
timer of the new state starts after its enter action. -/
def enterState (s : TcpState) : ConnM Unit := do
  modify fun c => { c with current := some s, armed := c.current.isNone && c.armed }
  let raised ← tryCatch (do enterAction react s; pure none) fun e => pure (some e)
  match raised with
  | none => modify fun c => { c with armed := c.armed || s.hasTimeout }
  | some .abort => instanceFinish react
  | some .error => instanceFail react

/-- `state_machine_instance_update`. -/
def instanceUpdate (jump : Jump) : ConnM Unit := do
  let c ← get
  if c.finished then throw .error
  else
    match jump with
    | .fail => instanceFail react
    | .finish => instanceFinish react
    | .state s => enterState react s

def _triggerReceive (direction : Direction) : ConnM Unit := do
  signal react canContinue
  let c ← get
  if c.nextDissector then react else send react (some direction)

def finishStream (direction : Direction) : ConnM Unit :=
  modify fun c => match c.stream with
    | none => c
    | some st =>
      c.setStream direction { st direction with stream := vbufferStreamFinish (st direction).stream }

/-- `push`. A buffer stream that is finished refuses the data with an error. -/
def push (pkt : Tcp) (direction : Direction) (finish : Bool) : ConnM Unit := do
  let c ← get
  match c.stream with
  | none => throw .error
  | some st => do
    let (heap, s, _, _) := tcpStreamPush c.heap (st direction) pkt
    modify fun c =>
      { c.setStream direction s with heap := heap, log := .pushed direction pkt.address :: c.log }
    if vbufferStreamIsfinished (st direction).stream &&
        (st direction).lastSeq == (tcpChunk (st direction) pkt).startSeq then throw .error
    if finish then finishStream direction
    _triggerReceive react direction

def finish (direction : Direction) : ConnM Unit := do
  let c ← get
  if c.stream.isNone then throw .error
  finishStream direction
  _triggerReceive react direction

/-- The body of an action. -/
def execute (pkt : Tcp) : Execute → ConnM Unit
  | .nothing => pure ()
  -- the default action of the policy
  | .unexpectedPacket | .invalidHandshake => throw .error
  | .send dir => do
    let c ← get
    match c.stream with
    | none => throw .error
    | some st => do
      modify fun c => c.setStream (c.role dir) (tcpStreamInit (st (c.role dir)) (pkt.seq + 1))
      sendPacket react (c.role dir) pkt
  | .forward => do
    let c ← get
    sendPacket react c.input pkt
  | .push dir last => do
    let c ← get
    push react pkt (c.role dir) last
  | .pushSwap => do
    let c ← get
    push react pkt c.output true
    modify fun c => { c with input := c.output, output := c.input }
  | .dofinish => do
    let c ← get
    finish react c.output
    let c ← get
    _sendpkt react pkt c.output
  | .sendpkt dir => do
    let c ← get
    _sendpkt react pkt (c.role dir)
  | .restart => modify fun c => { c with restart := true }

/-- `trigger` of the state machine instance for an event of a packet. -/
def trigger (event : TcpEvent) (pkt : Tcp) : ConnM Unit := do
  let c ← get
  match c.current with
  | none => throw .error
  | some s =>
    match findAction s event pkt.flags with
    | none => pure ()
    | some a => do
      execute react pkt a.execute
      match a.jump with
      | none => pure ()
      | some jump => instanceUpdate react jump

/-- `drop`: the event `reset`, for which `any` has an action without body. -/
def drop : ConnM Unit := do
  let c ← get
  if !c.hasState || c.current.isNone then throw .error
  else instanceUpdate react (.state .reset)

def reset : ConnM Unit := do
  let c ← get
  if !c.established then throw .error
  let rst ← _forgereset .down
  sendPacket react .down rst
  let rst ← _forgereset .up
  sendPacket react .up rst
  drop react

def halfreset : ConnM Unit := do
  let c ← get
  if !c.established then throw .error
  let rst ← _forgereset .down
  sendPacket react .down rst
  drop react

/-- A reaction is carried out. -/
def perform : Reaction → ConnM Unit
  | .ret | .skip => pure ()
  | .send direction => send react direction
  | .drop => drop react
  | .reset => reset react
  | .halfreset => halfreset react
  | .edit direction heap data =>
    modify fun c => match c.stream with
      | none => { c with heap := heap }
      | some st =>
        { c.setStream direction
            { st direction with stream := { (st direction).stream with data := data } } with
          heap := heap }
  | .error => throw .error
  | .abort => throw .abort

/-- `update` of a state. -/
def update (direction : Direction) (pkt : Tcp) : ConnM Unit := do
  let c ← get
  if !c.hasState || c.current.isNone then throw .error
  else if pkt.flags.rst then do
    _sendpkt react pkt direction
    trigger react .reset pkt
  else if direction = c.input then trigger react .input pkt
  else trigger react .output pkt

def emit (direction : Direction) (pkt : Tcp) : ConnM Unit := do
  let c ← get
  if !c.parent then throw .error
  signal react canContinue
  update react direction pkt

/-- `__init`, with the init action of the state `syn`. -/
def create : ConnM Unit :=
  modify fun c =>
    let (h₁, up) := tcpStreamCreate c.heap
    let (h₂, down) := tcpStreamCreate h₁
    { c with
      heap := h₂, cnx := .live, parent := true, hasState := true, current := some .syn,
      finished := false, inFailure := false, armed := false, input := .up, output := .down,
      stream := some fun d => match d with
        | .up => up
        | .down => down,
      established := false, restart := false }

/-- The part of `receive` that opens a connection. -/
def connect : ConnM Unit := do
  create
  let raised ← tryCatch (do signal react canContinue; pure none) fun e => pure (some e)
  if raised = some .error then do
    _close
    throw .abort
  let c ← get
  if c.stream.isNone then throw .abort

/-- `receive`, where `again` is the call for a connection that was restarted. -/
def receive (again : ConnM Unit) (direction : Direction) (pkt : Tcp) : ConnM Unit := do
  let c ← get
  if c.cnx ≠ .live then do
    if pkt.flags.syn && !pkt.flags.ack then connect react else throw .abort
  let direction := if c.cnx = .absent then .up else direction
  tryCatch (do
      emit react direction pkt
      let c ← get
      if c.restart then again)
    fun e => if e = .error then _close else pure ()

end Methods

/-- The reactions of the script up to `ret`. With as much fuel as the script is long it never runs
out, as every turn takes a reaction. -/
def reactions : ℕ → ConnM Unit
  | 0 => pure ()
  | n + 1 => do
    let c ← get
    match c.script with
    | [] => pure ()
    | .ret :: script => modify fun c => { c with script := script }
    | r :: script => do
      modify fun c => { c with script := script }
      perform (reactions n) r
      reactions n

end TcpConnection

/-! ## Runs -/

/-- With the heap and the script of the rules and dissectors: a packet comes, a timer of the current
state fires, or a rule acts at another time. -/
inductive ConnInput where
  | packet (heap : Heap) (script : List Reaction) (direction : Direction) (pkt : Tcp)
  | timeout (heap : Heap) (script : List Reaction)
  | call (heap : Heap) (script : List Reaction)

open TcpConnection in
/-- The code an input runs. The states `reset` and `timed_wait` jump to `finish` on a timeout. -/
def ConnInput.code : ConnInput → ConnM Unit
  | packet _ script direction pkt =>
    let react := reactions script.length
    receive react (receive react (pure ()) direction pkt) direction pkt
  | timeout _ script => do
    let c ← get
    if c.armed ∧ (c.current = some .reset ∨ c.current = some .timedWait) then
      instanceUpdate (reactions script.length) .finish
  | call _ script => reactions script.length

def ConnInput.begin (c : TcpConnection) : ConnInput → TcpConnection
  | packet heap script _ _ | timeout heap script | call heap script =>
    { c with heap := heap, script := script }

def connStep (c : TcpConnection) (i : ConnInput) : TcpConnection × Unit :=
  ((exec i.code (i.begin c)).2, ())

def noConnection (heap : Heap) (nextDissector : Bool) : TcpConnection :=
  ⟨heap, .absent, false, false, none, true, false, false, .up, .down, none, false, false, nextDissector, [],
    []⟩

end Haka
