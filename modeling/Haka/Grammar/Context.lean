import Haka.Grammar.Graph

/-!
# Traversing the graph of a grammar

The parse context of `parse.lua` and the `_apply` methods of the nodes of `grammar_dg.lua`. A context
keeps explicit stacks of results, marks, catches and recursions, and a nesting level. `step` is one
turn of the loop of `_traverse`: the node is applied; an error goes to the innermost catch; and when
the level is back at the exit level, the innermost recursion ends, or the traversal if there is none.

`none` is a Lua error: a failed `assert`, an index of `nil`, or the limit of the recursion.
-/

namespace Haka.Grammar

variable {κ ν : Type}

/-- A position to come back to, with the furthest position reached. -/
structure Mark where
  iter : ℕ
  bitoffset : ℕ
  maxMeter : ℤ
  maxIter : ℕ
  maxBitoffset : ℕ
  deriving DecidableEq

/-- The mark `ctx:pushmark()` makes. -/
def Mark.new (p : Position) : Mark where
  iter := p.meter
  bitoffset := p.bitoffset
  maxMeter := 0
  maxIter := p.meter
  maxBitoffset := p.bitoffset

/-- Where an error goes, and how high the stacks are at the start of the case. -/
structure Catch where
  entity : Option ℕ
  retainCount : ℕ
  markCount : ℕ
  resultCount : ℕ
  deriving DecidableEq

/-- A recursion: the node after it and the exit level around it. -/
structure Frame where
  elem : Option ℕ
  level : ℤ
  deriving DecidableEq

structure Context (ν : Type) extends State ν where
  marks : List Mark := []
  catches : List Catch := []
  results : List ℕ := []
  retainMark : List (Position × Bool) := []
  recurs : List Frame := []
  level : ℤ := 0
  levelExit : ℤ := 0
  startRec : Bool := false
  error : Option String := none

namespace Context

def maxRecursion : ℕ := 10

def result (c : Context ν) : Option ℕ := c.results.head?

def mark (c : Context ν) (readonly : Bool) : Context ν :=
  { c with retainMark := (c.iter, readonly) :: c.retainMark }

def unmark (c : Context ν) : Option (Context ν) :=
  match c.retainMark with
  | [] => none
  | _ :: rest => some { c with retainMark := rest }

def pushlevel (c : Context ν) : Context ν := { c with level := c.level + 1 }

def poplevel (c : Context ν) : Context ν := { c with level := c.level - 1 }

def pop (c : Context ν) : Option (Context ν) :=
  match c.results with
  | [] => none
  | _ :: rest => some { c with results := rest }

/-- `ctx:push(result)` of a new result. -/
def push (c : Context ν) : Context ν × ℕ :=
  ({ c with store := c.store.new.1, results := c.store.new.2 :: c.results }, c.store.new.2)

def pushmark (c : Context ν) : Context ν := { c with marks := .new c.iter :: c.marks }

def popmark (c : Context ν) : Context ν := { c with marks := c.marks.tail }

def seekmark (c : Context ν) : Option (Context ν) :=
  match c.marks with
  | [] => none
  | mark :: rest =>
    let len : ℤ := c.iter.meter - mark.iter
    let mark :=
      if len ≥ mark.maxMeter then
        { mark with
          maxIter := c.iter.meter
          maxMeter := len
          maxBitoffset := max c.iter.bitoffset mark.maxBitoffset }
      else mark
    some { c with marks := mark :: rest, iter := ⟨mark.iter, mark.bitoffset⟩ }

def pushcatch (c : Context ν) (entity : Option ℕ) : Context ν :=
  let c := (c.mark false).pushmark
  { c with
    catches :=
      { entity, retainCount := c.retainMark.length, markCount := c.marks.length,
        resultCount := c.results.length } :: c.catches }

def popcatch (c : Context ν) : Option (Context ν) := do
  let c ← c.popmark.unmark
  return { c with catches := c.catches.tail }

/-- `ctx:catch()`: the node to go on at, or `none`. -/
def catchError (c : Context ν) : Option (Option ℕ × Context ν) :=
  match c.catches with
  | [] => some (none, c)
  | top :: _ => do
    let c :=
      { c with
        retainMark := c.retainMark.drop (c.retainMark.length - top.retainCount)
        marks := c.marks.drop (c.marks.length - top.markCount)
        results := c.results.drop (c.results.length - top.resultCount) }
    -- the result of the try itself
    let c ← c.pop
    let c ← c.seekmark
    let c ← c.popcatch
    return (top.entity, c)

def pushrecurs (c : Context ν) (finish : Option ℕ) : Option (Context ν) :=
  if c.recurs.length ≥ maxRecursion then none
  else
    some { c with
      recurs := { elem := finish, level := c.levelExit } :: c.recurs
      levelExit := c.level
      startRec := true }

/-- The loop at the end of a turn of `_traverse`: at the exit level a recursion ends (`poprecurs`),
or everything if there is none. -/
def leave : List Frame → Option ℕ → Context ν → Option ℕ × Context ν
  | [], iter, c =>
    if !c.startRec && c.level == c.levelExit then (none, { c with level := 0 }) else (iter, c)
  | frame :: rest, iter, c =>
    if !c.startRec && c.level == c.levelExit then
      let c := { c with recurs := rest, levelExit := frame.level }
      match frame.elem with
      | none => (none, c)
      | some elem => leave rest (some elem) c
    else (iter, c)

end Context

/-! ## Nodes -/

def Node.apply (nd : Node κ ν) (c : Context ν) : Option (Context ν) :=
  match nd.kind with
  | .compoundStart => some c.pushlevel
  | .compoundFinish => some c.poplevel
  | .retain readonly => some (c.mark readonly)
  | .release => c.unmark
  | .recordStart none => some c
  | .recordStart (some name) => do
    let res ← c.result
    let (c, new) := c.push
    return { c with store := c.store.addproperty res name (.result new) }
  | .recordFinish pop => do
    let _ ← c.result
    if pop then c.pop else return c
  | .unionStart name => do
    let c := { c with union := some (.new c.iter) }
    let c ← if name.isSome then c.result.map fun _ => c.push.1 else some c
    return (c.mark false).pushmark
  | .unionRestart => do
    let union ← c.union
    let union :=
      if c.iter.meter = union.meter then
        { union with bitoffset := max c.iter.bitoffset union.bitoffset }
      else if c.iter.meter > union.meter then
        { union with meter := c.iter.meter, bitoffset := c.iter.bitoffset }
      else union
    ({ c with union := some union }).seekmark
  | .unionFinish pop => do
    let _ ← c.result
    let c ← if pop then c.pop else some c
    let c ← c.popmark.unmark
    let union ← c.union
    return { c with
      iter := ⟨c.iter.meter + (union.meter - union.start), union.bitoffset⟩
      union := none }
  | .branch _ => some c
  | .arrayStart name => do
    let res ← c.result
    let (c, array) := c.push
    match name with
    | none => return c
    | some name => return { c with store := c.store.addproperty res name (.result array) }
  | .arrayPush => do
    let res ← c.result
    let (c, new) := c.push
    return { c with store := c.store.insert res new }
  | .arrayPop => c.pop
  | .resultPop => c.pop
  | .tryStart _ => some (c.push.1.pushcatch nd.catchEntity)
  | .tryFinish name => do
    let res ← c.result
    let c ← c.pop
    match name with
    | some _ => c.popcatch
    | none => do
      let dst ← c.result
      ({ c with store := c.store.merge dst res }).popcatch
  | .error msg => some { c with error := some msg }
  | .recurs _ => c.pushrecurs nd.next
  | .primitive p name => do
    let _ ← c.result
    let (store, iter, error) := p.parse name (c.scope c.results)
    return { c with
      store, iter, error
      trace := c.trace ++ [{ leaf := p, named := name, iter := c.iter }] }

/-- `node:next(ctx)` -/
def Node.nextNode [DecidableEq κ] (nd : Node κ ν) (c : Context ν) : Option (Option ℕ) :=
  match nd.kind with
  | .branch selector => do
    let _ ← c.result
    let key := selector (c.scope c.results)
    return ((nd.cases.find? fun p => some p.1 = key).map Prod.snd).or nd.next
  | .recurs entity => some (some entity)
  | _ => some nd.next

/-! ## The traversal -/

section Traverse

variable [DecidableEq κ]

/-- One turn of the loop of `_traverse` at the node `i`. -/
def step (g : Graph κ ν) (i : ℕ) (c : Context ν) : Option (Option ℕ × Context ν) := do
  let nd ← g.node i
  let c ← nd.apply { c with startRec := false }
  match c.error with
  | some _ =>
    match ← c.catchError with
    | (none, c) => return (none, c)
    | (some i, c) => return Context.leave c.recurs (some i) { c with error := none }
  | none =>
    let iter ← nd.nextNode c
    return Context.leave c.recurs iter c

/-- At most `n` turns of the loop. -/
def run (g : Graph κ ν) : ℕ → Option ℕ × Context ν → Option (Option ℕ × Context ν)
  | 0, s => some s
  | _ + 1, (none, c) => some (none, c)
  | n + 1, (some i, c) => (step g i c).bind (run g n)

/-- The context `_traverse` starts its loop with; `all` is true for `parse` and false for
`create`. -/
def Context.start (input : List UInt8) (all : Bool) : Context ν :=
  let c : Context ν := { input, iter := ⟨0, 0⟩, store := {} }
  { c.push.1 with level := if all then 1 else 0 }

end Traverse

/-- How a parse ends: with success, with a parse error, or with a Lua error. -/
inductive Reading (ν : Type) where
  | done (s : State ν)
  | failed (s : State ν) (msg : String)
  | crashed

/-- `_traverse(entity, f, all)` for at most `fuel` turns; `none` if it has not ended by then. -/
def traverse [DecidableEq κ] (g : Graph κ ν) (entity : ℕ) (all : Bool) (input : List UInt8)
    (fuel : ℕ) : Option (Reading ν) :=
  match run g fuel (some entity, Context.start input all) with
  | none => some .crashed
  | some (some _, _) => none
  | some (none, c) =>
    match c.error with
    | none => some (.done c.toState)
    | some msg => some (.failed c.toState msg)

end Haka.Grammar
