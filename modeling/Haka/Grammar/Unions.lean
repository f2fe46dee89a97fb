import Haka.Grammar.Equivalence

/-!
# Unions

Grammars of fields, records and unions, and what their unions are meant to do: every member starts
where the union starts, and the union ends at the furthest position that a member reaches, the
positions compared by bytes first. The code remembers one open union only. The end of a union
clears it, and the restart of a union around it is then a Lua error.
-/

namespace Haka.Grammar

variable {ν : Type}

instance : LinearOrder Position :=
  LinearOrder.lift' (fun p => toLex (p.meter, p.bitoffset)) fun p q h => by
    cases p; cases q; simpa using h

theorem Position.le_iff {p q : Position} :
    p ≤ q ↔ p.meter < q.meter ∨ p.meter = q.meter ∧ p.bitoffset ≤ q.bitoffset :=
  Prod.Lex.toLex_le_toLex

/-- The union of the positions from `start` up to `far`. -/
def Union.upTo (start far : Position) : Union := ⟨start.meter, far.meter, far.bitoffset⟩

theorem Union.reach_upTo (start far p : Position) :
    (Union.upTo start far).reach p = .upTo start (max far p) := by
  rcases le_total far p with h | h
  · rw [max_eq_right h]
    rw [Position.le_iff] at h
    unfold Union.reach Union.upTo
    simp only
    split_ifs <;> simp <;> omega
  · rw [max_eq_left h]
    rw [Position.le_iff] at h
    unfold Union.reach Union.upTo
    simp only
    split_ifs <;> simp <;> omega

mutual

/-- A grammar of fields, records and unions. -/
inductive Layout (ν : Type) where
  | field (p : Primitive ν)
  | record (members : Layouts ν)
  | union (members : Layouts ν)

/-- Layouts with their names. -/
inductive Layouts (ν : Type) where
  | nil
  | cons (named : Option String) (layout : Layout ν) (rest : Layouts ν)

end

mutual

def Layout.entity (κ : Type) : Layout ν → Entity κ ν
  | .field p => .primitive p
  | .record members => .record (members.entities κ)
  | .union members => .union (members.entities κ)

def Layouts.entities (κ : Type) : Layouts ν → Entities κ ν
  | .nil => .nil
  | .cons named layout rest => .cons named (layout.entity κ) (rest.entities κ)

end

mutual

def Layout.unions : Layout ν → Bool
  | .field _ => false
  | .record members => members.unions
  | .union _ => true

def Layouts.unions : Layouts ν → Bool
  | .nil => false
  | .cons _ layout rest => layout.unions || rest.unions

end

mutual

def Layout.flat : Layout ν → Bool
  | .field _ => true
  | .record members => members.flat
  | .union members => !members.unions

def Layouts.flat : Layouts ν → Bool
  | .nil => true
  | .cons _ layout rest => layout.flat && rest.flat

end

mutual

/-- What reading a layout is meant to do, if the input has all its fields. -/
def Layout.intended : Layout ν → Option String → List ℕ → State ν → Option (State ν)
  | .field p, named, results, s =>
    match readLeaf p named results s with
    | .done s => some s
    | _ => none
  | .record members, none, results, s => members.inOrder results s
  | .record members, some name, results, s =>
    let new := s.newField results name
    members.inOrder (new.2 :: results) new.1
  | .union members, none, results, s => members.together results s.iter s.iter s
  | .union members, some _, results, s =>
    let new := s.newResult
    members.together (new.2 :: results) s.iter s.iter new.1

def Layouts.inOrder : Layouts ν → List ℕ → State ν → Option (State ν)
  | .nil, _, s => some s
  | .cons named layout rest, results, s =>
    (layout.intended named results s).bind fun s => rest.inOrder results s

/-- All from `start`; in the end the position is the furthest one, `far` being that of the members
before. -/
def Layouts.together : Layouts ν → List ℕ → Position → Position → State ν → Option (State ν)
  | .nil, _, _, far, s => some { s with iter := far }
  | .cons named layout rest, results, start, far, s =>
    (layout.intended named results { s with iter := start }).bind fun s =>
      rest.together results start (max far s.iter) s

end

/-! ## The reading -/

mutual

theorem Layout.fits (κ : Type) : ∀ layout : Layout ν, (layout.entity κ).all (Entity.fits false) = true
  | .field _ => rfl
  | .record members | .union members => members.fits κ

theorem Layouts.fits (κ : Type) :
    ∀ layouts : Layouts ν, (layouts.entities κ).all (Entity.fits false) = true
  | .nil => rfl
  | .cons _ layout rest => by
    rw [Layouts.entities, Entities.all, layout.fits κ, rest.fits κ]
    rfl

end

mutual

theorem Layout.flat_of_unions : ∀ {layout : Layout ν}, layout.unions = false → layout.flat = true
  | .field _, _ => rfl
  | .record _, h => Layouts.flat_of_unions h

theorem Layouts.flat_of_unions :
    ∀ {layouts : Layouts ν}, layouts.unions = false → layouts.flat = true
  | .nil, _ => rfl
  | .cons _ layout rest, h => by
    simp only [Layouts.unions, Bool.or_eq_false_iff] at h
    simp [Layouts.flat, layout.flat_of_unions h.1, rest.flat_of_unions h.2]

end

theorem Layouts.le_together : ∀ {layouts : Layouts ν} {results : List ℕ} {start far : Position}
    {s s' : State ν}, layouts.together results start far s = some s' → far ≤ s'.iter
  | .nil, _, _, _, _, _, h => by
    cases h
    exact le_rfl
  | .cons _ _ _, _, _, _, _, _, h => by
    obtain ⟨_, _, h⟩ := Option.bind_eq_some_iff.mp h
    exact (le_max_left _ _).trans (le_together h)

theorem State.finishUnion_upTo {s : State ν} {start far : Position} (h : start ≤ far) :
    ({ s with iter := start, union := some (.upTo start far) } : State ν).finishUnion =
      some { s with iter := far, union := none } := by
  have hle : start.meter ≤ far.meter := by
    rw [Position.le_iff] at h
    omega
  simp [State.finishUnion, Union.upTo, Nat.add_sub_cancel' hle]

section Read

variable {κ : Type} [DecidableEq κ] {fuel : ℕ} {again : Reader κ ν}

variable {named : Option String} {s' : State ν}

omit [DecidableEq κ] in
theorem readLeaf_union {p : Primitive ν} {results : List ℕ} {s : State ν}
    (u : Option Union) (h : readLeaf p named results s = .done s') :
    readLeaf p named results { s with union := u } = .done { s' with union := u } := by
  have hscope : ({ s with union := u } : State ν).scope results = s.scope results := rfl
  unfold readLeaf at h ⊢
  rw [hscope]
  cases hp : (p.parse named (s.scope results)).2.2 with
  | none =>
    simp only [hp] at h ⊢
    cases h
    rfl
  | some msg => simp [hp] at h

/-- The outcome of the code where `s` is intended: the open union `u` is lost after a union. -/
def outcomeOf (flat unions : Bool) (u : Option Union) (s : State ν) : Option (Reading ν) :=
  if flat then some (.done { s with union := if unions then none else u }) else some .crashed

omit [DecidableEq κ] in
theorem finish_members {r : Option (Reading ν)} {unions : Bool} {u : Option Union}
    {start : Position} (hle : start ≤ s'.iter)
    (h : r = if unions then some .crashed
      else some (.done { s' with iter := start, union := some (.upTo start s'.iter) })) :
    Reading.andThen r (fun s => orCrash s.finishUnion fun s => some (.done s)) =
      outcomeOf (!unions) true u s' := by
  subst h
  cases unions <;> simp [outcomeOf, Reading.andThen, State.finishUnion_upTo hle, orCrash]

mutual

theorem Layout.readWith_eq : ∀ (layout : Layout ν) (named : Option String)
    (env : List (Enclosing κ ν)) (results : List ℕ) (s : State ν) (u : Option Union)
    {s' : State ν}, layout.intended named results s = some s' →
    (layout.entity κ).readWith fuel again named env results { s with union := u } =
      outcomeOf layout.flat layout.unions u s'
  | .field p, named, env, results, s, u, s', h => by
    simp only [Layout.intended] at h
    split at h
    · next hs =>
      cases h
      simp only [Layout.entity, Entity.readWith, readLeaf_union u hs]
      rfl
    · cases h
  | .record members, none, env, results, s, u, s', h =>
    members.readChain_eq _ results s u h
  | .record members, some name, env, results, s, u, s', h =>
    members.readChain_eq _ _ (s.newField results name).1 u h
  | .union members, none, env, results, s, u, s', h =>
    finish_members (Layouts.le_together h) (members.readMembers_eq _ results s.iter s.iter s h)
  | .union members, some _, env, results, s, u, s', h =>
    finish_members (Layouts.le_together h)
      (members.readMembers_eq _ _ s.iter s.iter s.newResult.1 h)

theorem Layouts.readChain_eq : ∀ (layouts : Layouts ν)
    (env : List (Enclosing κ ν)) (results : List ℕ) (s : State ν) (u : Option Union)
    {s' : State ν}, layouts.inOrder results s = some s' →
    (layouts.entities κ).readChain fuel again env results { s with union := u } =
      outcomeOf layouts.flat layouts.unions u s'
  | .nil, env, results, s, u, s', h => by
    cases h
    rfl
  | .cons named layout rest, env, results, s, u, s', h => by
    obtain ⟨s1, h1, h2⟩ := Option.bind_eq_some_iff.mp h
    simp only [Layouts.entities, Entities.readChain, layout.readWith_eq named env results s u h1,
      Layouts.flat, Layouts.unions]
    cases hf : layout.flat with
    | false => rfl
    | true =>
      simp only [outcomeOf, if_true, Reading.andThen, Bool.true_and]
      rw [rest.readChain_eq env results s1 _ h2]
      cases layout.unions <;> cases rest.unions <;> rfl

theorem Layouts.readMembers_eq : ∀ (layouts : Layouts ν)
    (env : List (Enclosing κ ν)) (results : List ℕ) (start far : Position) (s : State ν)
    {s' : State ν}, layouts.together results start far s = some s' →
    (layouts.entities κ).readMembers fuel again env results start
        { s with iter := start, union := some (.upTo start far) } =
      if layouts.unions then some .crashed
      else some (.done { s' with iter := start, union := some (.upTo start s'.iter) })
  | .nil, env, results, start, far, s, s', h => by
    cases h
    rfl
  | .cons named layout rest, env, results, start, far, s, s', h => by
    obtain ⟨s1, h1, h2⟩ := Option.bind_eq_some_iff.mp h
    simp only [Layouts.entities, Entities.readMembers,
      layout.readWith_eq named env results { s with iter := start } _ h1, Layouts.unions]
    by_cases hu : layout.unions = true
    · cases layout.flat <;> simp [hu, outcomeOf, Reading.andThen, State.restart, orCrash]
    · -- the member leaves the union open
      rw [Bool.not_eq_true] at hu
      simp only [hu, layout.flat_of_unions hu, outcomeOf, if_true, Reading.andThen, State.restart,
        Bool.false_eq_true, if_false, Option.map_some, orCrash, Union.reach_upTo, Bool.false_or]
      exact rest.readMembers_eq env results start _ s1 h2

end

def Layout.intendedParse (layout : Layout ν) (named : Option String) (input : List UInt8) :
    Option (State ν) :=
  let store : Store ν := {}
  layout.intended named [store.new.2] { input, iter := ⟨0, 0⟩, store := store.new.1 }

theorem Layout.parse_eq {layout : Layout ν} {input : List UInt8}
    (h : layout.intendedParse named input = some s') :
    (layout.entity κ).parse fuel named input = outcomeOf layout.flat layout.unions none s' :=
  layout.readWith_eq named [] _ _ none h

/-- **Nested unions.** The traversal reads every member of a union from its start and ends where the
furthest one ends exactly if no union of the grammar is inside of another one. -/
theorem unions_iff {g₀ g : Graph κ ν} {readonly : Bool} {root : ℕ} (layout : Layout ν)
    (named : Option String)
    (hcompile : (layout.entity κ).compile readonly named [] g₀ = .ok (g, root))
    (all : Bool) {input : List UInt8} {s' : State ν}
    (h : layout.intendedParse named input = some s') :
    (∃ fuel s, traverse g root all input fuel = some (.done s) ∧ s.iter = s'.iter ∧
      s.store = s'.store ∧ s.trace = s'.trace) ↔ layout.flat = true := by
  have hiff := compiled_reads hcompile (layout.fits κ) all input
  constructor
  · rintro ⟨fuel, s, hs, -⟩
    obtain ⟨fuel', hp⟩ := (hiff _).mp ⟨fuel, hs⟩
    by_contra hf
    simp [Layout.parse_eq h, outcomeOf, hf] at hp
  · intro hf
    obtain ⟨fuel, hs⟩ := (hiff _).mpr ⟨0, by rw [Layout.parse_eq h, outcomeOf, if_pos hf]⟩
    exact ⟨fuel, _, hs, rfl, rfl, rfl⟩

end Read

/-- The byte `a` and the bytes `ab`. -/
def aOrAB : Layouts Unit :=
  .cons none (.field (byteLeaf 97)) (.cons none
    (.record (.cons none (.field (byteLeaf 97)) (.cons none (.field (byteLeaf 98)) .nil))) .nil)

theorem union_ends : ∃ s', (Layout.union aOrAB).intendedParse none [97, 98] = some s' ∧
    ∃ fuel s, traverse (compiled ((Layout.union aOrAB).entity Unit)).1
      (compiled ((Layout.union aOrAB).entity Unit)).2 true [97, 98] fuel = some (.done s) ∧
      s.iter = s'.iter ∧ s.store = s'.store ∧ s.trace = s'.trace := by
  have hcompile : ((Layout.union aOrAB).entity Unit).compile false none [] {} =
      .ok ((compiled ((Layout.union aOrAB).entity Unit)).1,
        (compiled ((Layout.union aOrAB).entity Unit)).2) := rfl
  exact ⟨_, rfl, (unions_iff _ none hcompile true rfl).mpr rfl⟩

/-- A union in a union, which is meant to end after the byte `a`. -/
def unionInUnion : Layout Unit :=
  .union (.cons none (.union (.cons none (.field (byteLeaf 97)) .nil)) .nil)

/-- The restart of the outer union finds no open union: a Lua error. -/
theorem unionInUnion_crashes : (unionInUnion.intendedParse none [97]).map State.iter = some ⟨1, 0⟩ ∧
      ∃ fuel, traverse (compiled (unionInUnion.entity Unit)).1
        (compiled (unionInUnion.entity Unit)).2 true [97] fuel = some .crashed := by
  have hcompile : (unionInUnion.entity Unit).compile false none [] {} =
      .ok ((compiled (unionInUnion.entity Unit)).1, (compiled (unionInUnion.entity Unit)).2) := rfl
  obtain ⟨s', hs'⟩ : ∃ s', unionInUnion.intendedParse none [97] = some s' := ⟨_, rfl⟩
  exact ⟨by decide +kernel,
    (compiled_reads hcompile (unionInUnion.fits Unit) true _ _).mpr
      ⟨0, Layout.parse_eq hs'⟩⟩

end Haka.Grammar
