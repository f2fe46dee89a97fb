import Haka.Grammar.Context

/-!
# The direct reading of a grammar

What a grammar means, without a graph: a record or a sequence reads its entities in order, a branch
reads the selected case, an array reads elements while there are more, a union reads each element
from its start and ends at the furthest position, and a try reads its cases from its start until
one succeeds. A reference reads the compound it refers to again.

The recursion is on the entity; a reference takes from the limit of the recursion, and an array may
not end, so a reading takes `fuel`, the most elements an array can have, and is `none` when that
is not enough.
-/

namespace Haka.Grammar

variable {κ ν : Type}

def Reading.andThen (r : Option (Reading ν)) (f : State ν → Option (Reading ν)) :
    Option (Reading ν) :=
  match r with
  | some (.done s) => f s
  | _ => r

abbrev Enclosing (κ ν : Type) := Entity κ ν × Option String

/-- Reads an entity, from its name, the compounds around it, the results it is in and the state. -/
abbrev Reader (κ ν : Type) :=
  Entity κ ν → Option String → List (Enclosing κ ν) → List ℕ → State ν → Option (Reading ν)

/-! ## The parts of a reading -/

/-- A leaf parser. -/
def readLeaf (p : Primitive ν) (named : Option String) (results : List ℕ) (s : State ν) :
    Reading ν :=
  let (store, iter, error) := p.parse named (s.scope results)
  let s :=
    { s with store, iter, trace := s.trace ++ [{ leaf := p, named, iter := s.iter }] }
  match error with
  | none => .done s
  | some msg => .failed s msg

/-- A new result, as the field `named` of the innermost one. -/
def State.newField (s : State ν) (results : List ℕ) (named : String) : State ν × ℕ :=
  ({ s with
    store := s.store.new.1.addproperty (results.headD 0) named (.result s.store.new.2) },
    s.store.new.2)

def State.newResult (s : State ν) : State ν × ℕ := ({ s with store := s.store.new.1 }, s.store.new.2)

/-- The end of a try: without a name its result is merged into the one around it. -/
def State.mergeUnnamed (s : State ν) (named : Option String) (dst src : ℕ) : State ν :=
  match named with
  | some _ => s
  | none => { s with store := s.store.merge dst src }

/-- The elements of an array, from how one element is read. -/
def readArray (more : More ν) (element : List ℕ → State ν → Option (Reading ν))
    (results : List ℕ) : ℕ → State ν → Option (Reading ν)
  | 0, _ => none
  | fuel + 1, s =>
    if more.test (s.scope results) then
      let new := s.store.new
      let s := { s with store := new.1.insert (results.headD 0) new.2 }
      Reading.andThen (element (new.2 :: results) s) (readArray more element results fuel)
    else some (.done s)

def Union.reach (u : Union) (iter : Position) : Union :=
  if iter.meter = u.meter then { u with bitoffset := max iter.bitoffset u.bitoffset }
  else if iter.meter > u.meter then { u with meter := iter.meter, bitoffset := iter.bitoffset }
  else u

/-- After an element of a union: back to its start. A union inside another one forgets the outer
one. -/
def State.restart (s : State ν) (start : Position) : Option (State ν) :=
  s.union.map fun u => { s with union := some (u.reach s.iter), iter := start }

def State.finishUnion (s : State ν) : Option (State ν) :=
  s.union.map fun u =>
    { s with iter := ⟨s.iter.meter + (u.meter - u.start), u.bitoffset⟩, union := none }

def orCrash (s : Option (State ν)) (f : State ν → Option (Reading ν)) : Option (Reading ν) :=
  match s with
  | some s => f s
  | none => some .crashed

/-! ## Entities -/

section Read

variable [DecidableEq κ] (fuel : ℕ) (again : Reader κ ν)

mutual

/-- The reading of an entity, with `again` for the references in it. -/
def Entity.readWith : Entity κ ν → Option String → List (Enclosing κ ν) → List ℕ → State ν →
    Option (Reading ν)
  | .primitive p, named, _, results, s => some (readLeaf p named results s)
  | .record entities, none, env, results, s =>
    entities.readChain ((.record entities, none) :: env) results s
  | .record entities, some name, env, results, s =>
    let new := s.newField results name
    entities.readChain ((.record entities, some name) :: env) (new.2 :: results) new.1
  | .sequence entities, none, env, results, s =>
    entities.readChain ((.sequence entities, none) :: env) results s
  | .sequence entities, some name, env, results, s =>
    let new := s.newField results name
    entities.readChain ((.sequence entities, some name) :: env) (new.2 :: results) new.1
  | .union entities, named, env, results, s =>
    let start := s.iter
    let s := { s with union := some (.new s.iter) }
    let new := s.newResult
    Reading.andThen
      (if named.isSome then
        entities.readMembers ((.union entities, named) :: env) (new.2 :: results) start new.1
      else entities.readMembers ((.union entities, named) :: env) results start s)
      fun s => orCrash s.finishUnion fun s => some (.done s)
  | .try cases, named, env, results, s =>
    cases.readTry ((.try cases, named) :: env) named results s
  | .branch cases default selector, named, env, results, s =>
    cases.readCases ((.branch cases default selector, named) :: env) named results
      (selector (s.scope results))
      (fun s =>
        default.readDefault ((.branch cases default selector, named) :: env) results s) s
  | .array inner entity more, named, env, results, s =>
    let new := match named with
      | some name => s.newField results name
      | none => s.newResult
    readArray more
      (fun results s =>
        entity.readWith inner ((.array inner entity more, named) :: env) results s)
      (new.2 :: results) fuel new.1
  | .recurs up, _, env, results, s =>
    match env[up]? with
    | some (entity, named) => again entity named (env.drop (up + 1)) results s
    | none => some .crashed

def Entities.readChain : Entities κ ν → List (Enclosing κ ν) → List ℕ → State ν →
    Option (Reading ν)
  | .nil, _, _, s => some (.done s)
  | .cons named entity rest, env, results, s =>
    Reading.andThen (entity.readWith named env results s) fun s => rest.readChain env results s

def Entities.readMembers : Entities κ ν → List (Enclosing κ ν) → List ℕ → Position → State ν →
    Option (Reading ν)
  | .nil, _, _, _, s => some (.done s)
  | .cons named entity rest, env, results, start, s =>
    Reading.andThen (entity.readWith named env results s) fun s =>
      orCrash (s.restart start) fun s => rest.readMembers env results start s

/-- Each case fills a new result. -/
def Entities.readTry : Entities κ ν → List (Enclosing κ ν) → Option String → List ℕ → State ν →
    Option (Reading ν)
  | .nil, _, _, _, s => some (.failed s "cannot find a successful try case")
  | .cons named' entity rest, env, named, results, s =>
    let new := s.newResult
    match entity.readWith named' env (new.2 :: results) new.1 with
    | some (.done s') => some (.done (s'.mergeUnnamed named (results.headD 0) new.2))
    | some (.failed s' _) => rest.readTry env named results { s' with iter := s.iter }
    | r => r

def Cases.readCases : Cases κ ν → List (Enclosing κ ν) → Option String → List ℕ →
    Option (Key κ) → (State ν → Option (Reading ν)) → State ν → Option (Reading ν)
  | .nil, _, _, _, _, default, s => default s
  | .cons key named' entity rest, env, named, results, selected, default, s =>
    if some key = selected then entity.readWith (named.or named') env results s
    else rest.readCases env named results selected default s

def Default.readDefault : Default κ ν → List (Enclosing κ ν) → List ℕ → State ν →
    Option (Reading ν)
  | .error, _, _, s => some (.failed s "invalid case")
  | .continue, _, _, s => some (.done s)
  | .entity named entity, env, results, s => entity.readWith named env results s

end

variable {fuel again} in
theorem readWith_recurs {up : ℕ} {env : List (Enclosing κ ν)} {entity : Entity κ ν}
    {named : Option String} (h : env[up]? = some (entity, named)) (named' : Option String) :
    (Entity.recurs up).readWith fuel again named' env =
      again entity named (env.drop (up + 1)) := by
  funext results s
  simp only [Entity.readWith, h]

/-- The reading of an entity inside at most `depth` more recursions. -/
def Entity.read : ℕ → Reader κ ν
  | 0 => Entity.readWith fuel fun _ _ _ _ _ => some .crashed
  | depth + 1 => Entity.readWith fuel (Entity.read depth)

/-- The reading of an input from its start, into a new result. -/
def Entity.parse (entity : Entity κ ν) (named : Option String) (input : List UInt8) :
    Option (Reading ν) :=
  let store : Store ν := {}
  entity.read fuel Context.maxRecursion named [] [store.new.2]
    { input, iter := ⟨0, 0⟩, store := store.new.1 }

end Read

end Haka.Grammar
