import Mathlib.Tactic

/-!
# Grammars

The grammar descriptions of `grammar.lua`: records, sequences, branches, arrays and tries over leaf
parsers, with the result objects a parse fills. A leaf parser is any function of what a parser can
look at. Rules that name each other are taken as expanded; where the expansion comes back to a
compound it is inside of, the grammar has a reference to that compound, by the number of compounds
between (`recurs`), so that a grammar is a finite tree.

A Lua table of results is a number, its place in a `Store`; stacks are lists with the top first.
-/

namespace Haka.Grammar

/-- Where a parse stands: the bytes read so far and the bits read of the next one. -/
structure Position where
  meter : ℕ
  bitoffset : ℕ
  deriving DecidableEq, Repr

/-! ## Results -/

/-- The value of a result's field: another result, or what a leaf parser stores. -/
inductive Value (ν : Type) where
  | result (ref : ℕ)
  | leaf (value : ν)

/-- A result object: its named fields and, for an array, its elements. -/
structure Result (ν : Type) where
  field : String → Option (Value ν) := fun _ => none
  items : List ℕ := []

/-- The result objects made so far. -/
structure Store (ν : Type) where
  objects : List (Result ν) := []

section Store

variable {ν : Type}

def Store.new (store : Store ν) : Store ν × ℕ :=
  (⟨store.objects ++ [({} : Result ν)]⟩, store.objects.length)

def Store.get (store : Store ν) (ref : ℕ) : Result ν := store.objects.getD ref {}

def Store.modify (store : Store ν) (ref : ℕ) (f : Result ν → Result ν) : Store ν :=
  ⟨store.objects.modify ref f⟩

/-- `res:addproperty(name, ...)`, with the value the property's getter returns. -/
def Store.addproperty (store : Store ν) (res : ℕ) (name : String) (value : Value ν) : Store ν :=
  store.modify res fun r => { r with field := Function.update r.field name (some value) }

def Store.insert (store : Store ν) (res new : ℕ) : Store ν :=
  store.modify res fun r => { r with items := r.items ++ [new] }

/-- `class.merge(dst, src)`: the fields and elements of `src` go over those of `dst`. -/
def Store.merge (store : Store ν) (dst src : ℕ) : Store ν :=
  store.modify dst fun r =>
    { field := fun name => ((store.get src).field name).or (r.field name)
      items := (store.get src).items ++ r.items.drop (store.get src).items.length }

end Store

/-! ## Leaf parsers -/

/-- What a leaf parser or a condition of a grammar can look at: the input, where the parse stands
and the results it is in, the innermost first. -/
structure Scope (ν : Type) where
  input : List UInt8
  iter : Position
  results : List ℕ
  store : Store ν

/-- What `UnionStart` remembers: where the union starts and the furthest position its elements
reach. -/
structure Union where
  start : ℕ
  meter : ℕ
  bitoffset : ℕ
  deriving DecidableEq

/-- A union that starts at `p`. -/
def Union.new (p : Position) : Union := ⟨p.meter, p.meter, p.bitoffset⟩

/-- A leaf parser: from its name and what it sees, the results and the position it leaves and the
parse error it raises. -/
structure Primitive (ν : Type) where
  id : ℕ
  parse : Option String → Scope ν → Store ν × Position × Option String

/-- A leaf parser that was applied, under which name and where. -/
structure Applied (ν : Type) where
  leaf : Primitive ν
  named : Option String
  iter : Position

/-- What a parse changes: the position, the results, the open union, and the leaf parsers applied
so far. -/
structure State (ν : Type) where
  input : List UInt8
  iter : Position
  store : Store ν
  union : Option Union := none
  trace : List (Applied ν) := []

def State.scope {ν : Type} (s : State ν) (results : List ℕ) : Scope ν :=
  { input := s.input, iter := s.iter, results, store := s.store }

/-- A key of a branch's table of cases: a boolean or another Lua value. -/
inductive Key (κ : Type) where
  | bool (b : Bool)
  | value (v : κ)
  deriving DecidableEq

/-- `Array:count(size)` and `Array:untilcond(condition)`. -/
inductive More (ν : Type) where
  | count (size : Scope ν → ℤ)
  | untilcond (condition : Option ℕ → Scope ν → Bool)

/-- The function `more` of an array: is there another element? The array is the top result. -/
def More.test {ν : Type} (more : More ν) (s : Scope ν) : Bool :=
  let array := s.store.get (s.results.headD 0)
  match more with
  | .count size => decide ((array.items.length : ℤ) < size s)
  | .untilcond condition => !condition array.items.getLast? s

/-! ## Entities -/

mutual

/-- A grammar entity. Its name is not part of it: `field(name, entity)` clones the entity, so the
name stands where the entity is used. -/
inductive Entity (κ ν : Type) where
  | primitive (p : Primitive ν)
  | record (entities : Entities κ ν)
  | sequence (entities : Entities κ ν)
  | union (entities : Entities κ ν)
  | try (cases : Entities κ ν)
  | branch (cases : Cases κ ν) (default : Default κ ν) (selector : Scope ν → Option (Key κ))
  | array (named : Option String) (entity : Entity κ ν) (more : More ν)
  | recurs (up : ℕ)

/-- A list of entities with their names. -/
inductive Entities (κ ν : Type) where
  | nil
  | cons (named : Option String) (entity : Entity κ ν) (rest : Entities κ ν)

/-- The table of a branch without its entry `default`; the keys of a table are distinct. -/
inductive Cases (κ ν : Type) where
  | nil
  | cons (key : Key κ) (named : Option String) (entity : Entity κ ν) (rest : Cases κ ν)

/-- The entry `default` of a branch's table. -/
inductive Default (κ ν : Type) where
  | error
  | continue
  | entity (named : Option String) (entity : Entity κ ν)

end

section Tests

variable {κ ν : Type} (test : Entity κ ν → Bool)

mutual

/-- Does the entity and everything inside of it pass the test? -/
def Entity.all : Entity κ ν → Bool
  | .primitive p => test (.primitive p)
  | .record entities => test (.record entities) && entities.all
  | .sequence entities => test (.sequence entities) && entities.all
  | .union entities => test (.union entities) && entities.all
  | .try cases => test (.try cases) && cases.all
  | .branch cases default selector =>
    test (.branch cases default selector) && (cases.all && default.all)
  | .array named entity more => test (.array named entity more) && entity.all
  | .recurs up => test (.recurs up)

def Entities.all : Entities κ ν → Bool
  | .nil => true
  | .cons _ entity rest => entity.all && rest.all

def Cases.all : Cases κ ν → Bool
  | .nil => true
  | .cons _ _ entity rest => entity.all && rest.all

def Default.all : Default κ ν → Bool
  | .error => true
  | .continue => true
  | .entity _ entity => entity.all

end

def Entity.isRecurs : Entity κ ν → Bool
  | .recurs _ => true
  | _ => false

/-- The grammar has no references: it is not recursive. -/
def Entity.nonRecursive (entity : Entity κ ν) : Bool := entity.all fun e => !e.isRecurs

/-- All entities but the last are leaf parsers. -/
def Entities.leavesButLast : Entities κ ν → Bool
  | .nil => true
  | .cons _ _ .nil => true
  | .cons _ (.primitive _) rest => rest.leavesButLast
  | .cons _ _ (.cons ..) => false

def Entity.triesLeaves : Entity κ ν → Bool
  | .try cases => cases.leavesButLast
  | _ => true

/-- The cases of the tries are leaf parsers, but for the last case of each. -/
def Entity.leafCases (entity : Entity κ ν) : Bool := entity.all Entity.triesLeaves

end Tests

def optional {κ ν : Type} (named : Option String) (entity : Entity κ ν)
    (present : Scope ν → Option (Key κ)) : Entity κ ν :=
  .branch (.cons (.bool true) named entity .nil) .continue present

end Haka.Grammar
