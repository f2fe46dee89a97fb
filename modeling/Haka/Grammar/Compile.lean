import Haka.Grammar.Code
import Haka.Lib.Program

/-!
# Compiling a grammar

`Entity.compile` follows the `compile` and `do_compile` methods of `grammar.lua`: it makes the nodes
in the same order and links them by the same calls of `add`. Its main result is `compile_emits`: a
compilation that succeeds leaves the nodes made before as they were and emits the code of the
entity, without a continuation.

The proof keeps a `Piece` of a graph, something that was compiled and has no continuation yet, and
shows what linking the next part to it gives (`Piece.append`, `Piece.move`).
-/

namespace Haka.Grammar

open Haka.Grammar.Graph

variable {κ ν : Type}

/-! ## The compilation -/

/-- `Compound:compile`; `env` holds the nodes of the compounds that are being compiled. -/
def compileCompound (doCompile : List ℕ → Graph κ ν → Except String (Graph κ ν × ℕ))
    (env : List ℕ) (g : Graph κ ν) : Except String (Graph κ ν × ℕ) := do
  let (g, compound) := g.new .compoundStart
  let (g, ret) ← doCompile (compound :: env) g
  let g := g.add compound ret
  let (g, finish) := g.new .compoundFinish
  return (g.add compound finish, compound)

/-- `entity:compile`, from its `do_compile`. -/
def compileWith (compound : Bool)
    (doCompile : List ℕ → Graph κ ν → Except String (Graph κ ν × ℕ)) (env : List ℕ)
    (g : Graph κ ν) : Except String (Graph κ ν × ℕ) :=
  if compound then compileCompound doCompile env g else doCompile env g

section Compile

variable (readonly : Bool)

mutual

/-- `entity:do_compile`; `readonly` is `haka.capture_mode() == 'passthrough'`. -/
def Entity.doCompile : Entity κ ν → Option String → List ℕ → Graph κ ν →
    Except String (Graph κ ν × ℕ)
  | .primitive p, named, _, g => .ok (g.new (.primitive p named))
  | .record entities, named, env, g => do
    let (g, ret) := g.new (.retain readonly)
    let (g, iter) := g.new (.recordStart named)
    let g := g.add ret iter
    let (g, iter) ← entities.compileChain env iter g
    let (g, pop) := g.new (.recordFinish named.isSome)
    let g := g.add iter pop
    let (g, release) := g.new .release
    return (g.add iter release, ret)
  | .sequence entities, named, env, g => do
    let (g, ret) := g.new (.recordStart named)
    let (g, iter) ← entities.compileChain env ret g
    let (g, pop) := g.new (.recordFinish named.isSome)
    return (g.add iter pop, ret)
  | .union entities, named, env, g => do
    let (g, ret) := g.new (.unionStart named)
    let g ← entities.compileMembers env ret g
    let (g, finish) := g.new (.unionFinish named.isSome)
    return (g.add ret finish, ret)
  | .try cases, named, env, g => do
    let (g, finish) := g.new (.tryFinish named)
    cases.compileTry env named finish none g
  | .branch cases default selector, named, env, g => do
    let (g, ret) := g.new (.branch selector)
    let g ← cases.compileCases env named ret g
    let g ← default.compileDefault env ret g
    return (g, ret)
  | .array inner entity more, named, env, g => do
    let (g, start) := g.new (.arrayStart named)
    let (g, loop) := g.new (.branch more.selector)
    let (g, push) := g.new .arrayPush
    let (g, inner) ← compileWith entity.isCompound (entity.doCompile inner) env g
    let (g, pop) := g.new .arrayPop
    let (g, finish) := g.new .resultPop
    let g := ((g.add push inner).add push pop).add push loop
    let g := (g.case loop (.bool true) push).add loop finish
    return (g.add start loop, start)
  | .recurs up, _, env, g =>
    -- `env:get(self)` finds the compound that is being compiled
    match env[up]? with
    | some compiled => .ok (g.new (.recurs compiled))
    | none => .error "undefined entity"

/-- The loop over the entities of a record or a sequence; `iter` is the last one that was added. -/
def Entities.compileChain : Entities κ ν → List ℕ → ℕ → Graph κ ν →
    Except String (Graph κ ν × ℕ)
  | .nil, _, iter, g => .ok (g, iter)
  | .cons named entity rest, env, iter, g => do
    let (g, next) ← compileWith entity.isCompound (entity.doCompile named) env g
    rest.compileChain env next (g.add iter next)

/-- The loop over the elements of a union. -/
def Entities.compileMembers : Entities κ ν → List ℕ → ℕ → Graph κ ν → Except String (Graph κ ν)
  | .nil, _, _, g => .ok g
  | .cons named entity rest, env, ret, g => do
    let (g, next) ← compileWith entity.isCompound (entity.doCompile named) env g
    let (g, restart) := (g.add ret next).new .unionRestart
    rest.compileMembers env ret (g.add ret restart)

/-- The loop over the cases of a try; `previous` is `previous_try`. The node returned is the first
try, or the error that ends the cases. -/
def Entities.compileTry : Entities κ ν → List ℕ → Option String → ℕ → Option ℕ → Graph κ ν →
    Except String (Graph κ ν × ℕ)
  | .nil, _, _, _, none, _ => .error "cannot create a try element without any case"
  | .nil, _, _, _, some previous, g => do
    let (g, error) := g.new (.error "cannot find a successful try case")
    return (g.setCatch previous error, error)
  | .cons named' entity rest, env, named, finish, previous, g => do
    let (g, next) ← compileWith entity.isCompound (entity.doCompile named') env g
    let (g, attempt) := g.new (.tryStart named)
    let g := (g.add attempt next).add attempt finish
    let g := previous.elim g fun previous => g.setCatch previous attempt
    let (g, _) ← rest.compileTry env named finish (some attempt) g
    return (g, attempt)

/-- The loop over the cases of a branch. -/
def Cases.compileCases : Cases κ ν → List ℕ → Option String → ℕ → Graph κ ν →
    Except String (Graph κ ν)
  | .nil, _, _, _, g => .ok g
  | .cons key named' entity rest, env, named, ret, g => do
    if let (some _, some name) := (named, named') then
      throw s!"named element '{name}' are not supported in named branch"
    let (g, next) ← compileWith entity.isCompound (entity.doCompile (named.or named')) env g
    rest.compileCases env named ret (g.case ret key next)

/-- The default of a branch. -/
def Default.compileDefault : Default κ ν → List ℕ → ℕ → Graph κ ν → Except String (Graph κ ν)
  | .error, _, ret, g => do
    let (g, next) := g.new (.error "invalid case")
    return g.setNext ret next
  | .continue, _, _, g => .ok g
  | .entity named entity, env, ret, g => do
    let (g, next) ← compileWith entity.isCompound (entity.doCompile named) env g
    return g.setNext ret next

end

def Entity.compile (entity : Entity κ ν) (named : Option String) (env : List ℕ)
    (g : Graph κ ν) : Except String (Graph κ ν × ℕ) :=
  compileWith entity.isCompound (entity.doCompile readonly named) env g

end Compile

/-! ## Pieces -/

theorem links_add {g g' : Graph κ ν} (h : ∀ i nd, g.node i = some nd → g'.node i = some nd)
    (lo root k : ℕ) :
    Links (above lo g.node) (above lo (g'.add root k).node) root (some k) where
  grows := ((Grows.of_some h).trans (g'.add_grows root k)).above le_rfl
  fills y nd nd' hr hy hnext hy' := by
    rw [above_eq_some] at hy hy'
    have hr' : Reach g'.node root y := hr.mono ((above_grows lo g.node).trans (.of_some h))
    rw [add_fill k hr' (h y nd hy.2) hnext, Option.some.injEq] at hy'
    rw [← hy'.2]

/-- Since `g₀` the nodes from `g₀.size` on were made. They contain a part `Q` without a
continuation; its end can be reached from `iter`, and the links from there stay above `lo`. -/
structure Piece (g₀ g : Graph κ ν) (lo iter : ℕ)
    (Q : (ℕ → Option (Node κ ν)) → Option ℕ → Prop) : Prop where
  region : g₀.Region g
  base : g₀.size ≤ lo
  lo_le : lo ≤ iter
  lt : iter < g.size
  within : g.Within lo g.size
  code : Q (above g₀.size g.node) none
  linkable : Linkable iter Q

namespace Piece

variable {g0 g g' : Graph κ ν} {lo iter next : ℕ}
  {Q R : (ℕ → Option (Node κ ν)) → Option ℕ → Prop}

theorem new (h : g0.Region g) (kind : NodeKind κ ν) :
    Piece g0 (g.new kind).1 g.size g.size fun N k => Points N g.size kind k where
  region := h.new kind
  base := h.size_le
  lo_le := le_rfl
  lt := by simp
  within := ((Graph.Region.refl g).new kind).within
  code := ⟨{ kind }, above_eq_some.mpr ⟨h.size_le, g.new_node kind⟩, rfl, rfl⟩
  linkable := linkable_points _ _

theorem keep (P : Piece g0 g lo iter Q) {lo' : ℕ} (hlo : lo' ≤ g0.size)
    (h : ∀ i, g0.size ≤ i → i < g.size → g'.node i = g.node i) : Q (above lo' g'.node) none := by
  refine P.linkable.link (.of_some (fun i nd hi => ?_) iter) .refl P.code
  rw [above_eq_some] at hi ⊢
  exact ⟨hlo.trans hi.1, (h i hi.1 (node_lt hi.2)).trans hi.2⟩

section Add

variable (P : Piece g0 g lo iter Q) (P' : Piece g g' g.size next R)

include P P'

theorem add_node {i : ℕ} (hi : g.size ≤ i) : (g'.add iter next).node i = g'.node i :=
  add_frame (P.within.of_eq fun i _ hi => P'.region.frame i hi) P.lo_le P.lt (by omega)

theorem add_region : g0.Region (g'.add iter next) :=
  (P.region.trans P'.region).add (P.base.trans P.lo_le) (P.lt.trans_le P'.region.size_le)
    (P.region.size_le.trans P'.lo_le) P'.lt

theorem add_code : Q (above g0.size (g'.add iter next).node) (some next) ∧
    R (above g0.size (g'.add iter next).node) none := by
  constructor
  · refine P.linkable.link (links_add (fun i nd hi => ?_) _ _ _) .refl P.code
    rw [P'.region.frame i (node_lt hi), hi]
  · exact P'.keep P.region.size_le fun i hi _ => add_node P P' hi

theorem append : Piece g0 (g'.add iter next) lo iter fun N k => Q N (some next) ∧ R N k where
  region := add_region P P'
  base := P.base
  lo_le := P.lo_le
  lt := by rw [add_size]; exact P.lt.trans_le P'.region.size_le
  within := by
    rw [add_size]
    refine Graph.Within.add (Graph.Within.append
      (P.within.of_eq fun i _ hi => P'.region.frame i hi) P'.within ?_ P'.region.size_le) ?_ P'.lt
    · exact P.lo_le.trans P.lt.le
    · exact (P.lo_le.trans P.lt.le).trans P'.lo_le
  code := add_code P P'
  linkable := .after (P.linkable.stable next) P'.linkable

theorem move : Piece g0 (g'.add iter next) g.size next fun N k => Q N (some next) ∧ R N k where
  region := add_region P P'
  base := P.region.size_le
  lo_le := P'.lo_le
  lt := by rw [add_size]; exact P'.lt
  within := by
    rw [add_size]
    exact P'.within.of_eq fun i hi _ => add_node P P' hi
  code := add_code P P'
  linkable := .beside (P.linkable.stable next) P'.linkable

end Add

theorem extend (P : Piece g0 g lo iter Q) (kind : NodeKind κ ν) :
    Piece g0 ((g.new kind).1.add iter g.size) lo iter
      fun N k => Q N (some g.size) ∧ Points N g.size kind k :=
  P.append (.new (.refl g) kind)

theorem congr (P : Piece g0 g lo iter Q) (hR : Linkable next R)
    (h : Q (above g0.size g.node) none → R (above g0.size g.node) none)
    (hlo : g0.size ≤ next) (hlt : next < g.size) : Piece g0 g g0.size next R :=
  ⟨P.region, le_rfl, hlo, hlt, P.region.within, h P.code, hR⟩

/-- A node `ret` made before `g` is changed to lead to a piece that was made since. -/
theorem modify {g2 : Graph κ ν} (P : Piece g g' g.size next R) (h : g0.Region g) {ret : ℕ}
    (hlo : g0.size ≤ ret) (hlt : ret < g.size) {f : Node κ ν → Node κ ν}
    (hf : ∀ nd j, j ∈ (f nd).nexts → j ∈ nd.nexts ∨ j = next) (hg : g2 = g'.modify ret f) :
    g0.Region g2 ∧ (∀ i < g.size, i ≠ ret → g2.node i = g.node i) ∧
      g2.node ret = (g.node ret).map f ∧ ∀ i, g.size ≤ i → g2.node i = g'.node i := by
  subst hg
  have hnext := P.lo_le
  have hnext' := P.lt
  refine ⟨(h.trans P.region).modify hlo fun nd j hj => (hf nd j hj).imp_right fun h => by omega,
    fun i hi hne => ?_, ?_, fun i hi => modify_node_of_ne _ _ (by omega)⟩
  · rw [modify_node_of_ne _ _ hne, P.region.frame i hi]
  · rw [modify_node_self, P.region.frame ret hlt]

end Piece

/-! ## What the compilation emits -/

section Emits

variable {readonly : Bool} {g0 g g' : Graph κ ν} {lo iter r : ℕ} {env : List ℕ}
  {named : Option String} {Q : (ℕ → Option (Node κ ν)) → Option ℕ → Prop}

variable {entity : Entity κ ν}

theorem compileWith_emits (hdo : ∀ env g g' r, entity.doCompile readonly named env g = .ok (g', r) →
      Piece g g' g.size r fun N k => entity.Body readonly N named env r k)
    (h : compileWith entity.isCompound (entity.doCompile readonly named) env g = .ok (g', r)) :
    Piece g g' g.size r fun N k => entity.Code readonly N named env r k := by
  have hcode := fun r => Entity.Code.linkable readonly entity named env r
  unfold compileWith at h
  split_ifs at h with hc
  · obtain ⟨⟨g₁, ret⟩, hret, h⟩ := Except.bind_eq_ok.mp h
    cases h
    have P := ((Piece.new (.refl g) .compoundStart).append (hdo _ _ _ _ hret)).extend
      .compoundFinish
    refine P.congr (hcode _) (fun hP => ?_) le_rfl P.lt
    simp only [Entity.Code, Wrapped, hc, if_true]
    exact ⟨ret, _, hP.1.1, hP.1.2, hP.2⟩
  · have P := hdo _ _ _ _ h
    refine P.congr (hcode _) (fun hP => ?_) P.lo_le P.lt
    simpa [Entity.Code, Wrapped, hc] using hP

variable {n : ℕ} {R : (ℕ → Option (Node κ ν)) → Option ℕ → Prop}

variable {selector : Scope ν → Option (Key κ)}

/-- The three links from `push`: the element is continued at `pop`, `pop` at `loop`. -/
theorem array_element {start pop : ℕ} (hR : Linkable n R)
    (hloop : g.node (start + 1) = some { kind := .branch selector })
    (hpush : g.node (start + 2) = some { kind := .arrayPush })
    (hpop : g.node pop = some { kind := .arrayPop }) (hw : g.Within (start + 3) pop)
    (hn : start + 3 ≤ n) (hn' : n < pop) (hcode : R (above (start + 3) g.node) none)
    (hg : g' = ((g.add (start + 2) n).add (start + 2) pop).add (start + 2) (start + 1)) :
    (∀ i, i < start + 2 ∨ pop < i → g'.node i = g.node i) ∧
      g'.Within (start + 1) (pop + 1) ∧
      Points (above (start + 2) g'.node) (start + 2) .arrayPush (some n) ∧
      R (above (start + 2) g'.node) (some pop) ∧
      Points (above (start + 2) g'.node) pop .arrayPop (some (start + 1)) := by
  -- `push:add(inner)`: only `push` changes
  have h1 := add_fresh n hpush
  have hpush1 : (g.add (start + 2) n).node (start + 2) =
      some { kind := .arrayPush, next := some n } := by rw [h1, if_pos rfl]
  generalize g.add (start + 2) n = g1 at *
  have hw1 : g1.Within (start + 2) pop := by
    intro i hlo hhi j hj
    by_cases hi : i = start + 2
    · subst hi
      rw [nexts, nextsOf, hpush1] at hj
      simp [Node.nexts] at hj
      omega
    · rw [nexts, nextsOf, h1, if_neg hi] at hj
      have := hw i (by omega) hhi j hj
      omega
  have hpop1 : g1.Within pop (pop + 1) := by
    intro i hlo hhi j hj
    obtain rfl : i = pop := by omega
    rw [nexts, nextsOf, h1, if_neg (by omega), hpop] at hj
    simp [Node.nexts] at hj
  have hloop1 : g1.Within (start + 1) (start + 2) := by
    intro i hlo hhi j hj
    obtain rfl : i = start + 1 := by omega
    rw [nexts, nextsOf, h1, if_neg (by omega), hloop] at hj
    simp [Node.nexts] at hj
  have hcode1 : R (above (start + 2) g1.node) none := by
    refine hR.link (.of_some (fun i nd hi => ?_) n) .refl hcode
    rw [above_eq_some] at hi ⊢
    exact ⟨by omega, by rw [h1, if_neg (by omega), hi.2]⟩
  have hr1 : Reach (above (start + 2) g1.node) (start + 2) n :=
    reach_next (above_eq_some.mpr ⟨le_rfl, hpush1⟩) rfl
  -- `push:add(pop)`: the element is continued at `pop`
  have hcode2 : R (above (start + 2) (g1.add (start + 2) pop).node) (some pop) :=
    hR.link (links_add (fun _ _ h => h) _ _ _) hr1 hcode1
  have hframe2 : ∀ i, ¬(start + 2 ≤ i ∧ i < pop) → (g1.add (start + 2) pop).node i = g1.node i :=
    fun i hi => add_frame hw1 le_rfl (by omega) hi
  have hgrows2 := g1.add_grows (start + 2) pop
  have hw1' := hw1.append hpop1 (by omega) (by omega)
  have hw2 : (g1.add (start + 2) pop).Within (start + 2) (pop + 1) := hw1'.add (by omega) (by omega)
  have hw2' : (g1.add (start + 2) pop).Within (start + 1) (pop + 1) :=
    (hloop1.append hw1' (by omega) (by omega)).add (by omega) (by omega)
  have hpop2 : (g1.add (start + 2) pop).node pop = some { kind := .arrayPop } := by
    rw [hframe2 pop (by omega), h1, if_neg (by omega), hpop]
  generalize g1.add (start + 2) pop = g2 at *
  -- `push:add(loop)`: `pop` is continued at `loop`
  have hr2 : Reach g2.node (start + 2) pop :=
    (hr1.mono ((above_grows _ _).trans hgrows2)).trans
      ((hR.reach hcode2).mono (above_grows _ _))
  have hpop3 := add_fill (start + 1) hr2 hpop2 rfl
  have hgrows3 := (g2.add_grows (start + 2) (start + 1)).above (le_refl (start + 2))
  rw [← hg] at hpop3 hgrows3
  refine ⟨fun i hi => ?_, hg ▸ hw2'.add (by omega) (by omega), ?_, hR.mono hgrows3 hcode2,
    ⟨_, above_eq_some.mpr ⟨by omega, hpop3⟩, rfl, rfl⟩⟩
  · rw [hg, add_frame hw2 le_rfl (by omega) (by omega), hframe2 i (by omega), h1,
      if_neg (by omega)]
  · exact (stable_points ..).mono ((hgrows2.above le_rfl).trans hgrows3)
      ⟨_, above_eq_some.mpr ⟨le_rfl, hpush1⟩, rfl, rfl⟩

/-- The nodes of an array, all made before the first link, after its six links. -/
theorem array_links {start pop : ℕ} (hR : Linkable n R)
    (hstart : g.node start = some { kind := .arrayStart named })
    (hloop : g.node (start + 1) = some { kind := .branch selector })
    (hpush : g.node (start + 2) = some { kind := .arrayPush })
    (hpop : g.node pop = some { kind := .arrayPop })
    (hfinish : g.node (pop + 1) = some { kind := .resultPop }) (hw : g.Within (start + 3) pop)
    (hn : start + 3 ≤ n) (hn' : n < pop) (hcode : R (above (start + 3) g.node) none)
    (hg : g' = (((((g.add (start + 2) n).add (start + 2) pop).add (start + 2) (start + 1)).case
      (start + 1) (.bool true) (start + 2)).add (start + 1) (pop + 1)).add start (start + 1)) :
    Points (above start g'.node) start (.arrayStart named) (some (start + 1)) ∧
      Branches (above start g'.node) (start + 1) selector [(.bool true, start + 2)]
        (some (pop + 1)) ∧
      Points (above start g'.node) (start + 2) .arrayPush (some n) ∧
      R (above start g'.node) (some pop) ∧
      Points (above start g'.node) pop .arrayPop (some (start + 1)) ∧
      Points (above start g'.node) (pop + 1) .resultPop none := by
  obtain ⟨hold, hw3, hpush3, hcode3, hpop3⟩ :=
    array_element hR hloop hpush hpop hw hn hn' hcode rfl
  generalize ((g.add (start + 2) n).add (start + 2) pop).add (start + 2) (start + 1) = g3 at *
  -- `loop:case(true, push)` and `loop:add(finish)`
  have hframe4 : ∀ i ≠ start + 1,
      (g3.case (start + 1) (.bool true) (start + 2)).node i = g3.node i :=
    fun i hi => modify_node_of_ne _ _ hi
  have hloop4 : (g3.case (start + 1) (.bool true) (start + 2)).node (start + 1) =
      some { kind := .branch selector, cases := [(.bool true, start + 2)] } := by
    rw [case, modify_node_self, hold _ (by omega), hloop]
    rfl
  have hw4 : (g3.case (start + 1) (.bool true) (start + 2)).Within (start + 1) (pop + 1) := by
    intro i hlo hhi j hj
    by_cases hi : i = start + 1
    · subst hi
      rw [nexts, nextsOf, hloop4] at hj
      simp [Node.nexts] at hj
      omega
    · rw [nexts, nextsOf, hframe4 i hi] at hj
      exact hw3 i hlo hhi j hj
  generalize g3.case (start + 1) (.bool true) (start + 2) = g4 at *
  have hloop5 := add_fill (pop + 1) (.refl : Reach g4.node (start + 1) (start + 1)) hloop4 rfl
  have hframe5 : ∀ i, ¬(start + 1 ≤ i ∧ i < pop + 1) →
      (g4.add (start + 1) (pop + 1)).node i = g4.node i :=
    fun i hi => add_frame hw4 le_rfl (by omega) hi
  have hgrows5 := g4.add_grows (start + 1) (pop + 1)
  generalize g4.add (start + 1) (pop + 1) = g5 at *
  -- `start:add(loop)`: only `start` changes
  have hstart5 : g5.node start = some { kind := .arrayStart named } := by
    rw [hframe5 _ (by omega), hframe4 _ (by omega), hold _ (by omega), hstart]
  have h6 := add_fresh (start + 1) hstart5
  have hgrows6 := g5.add_grows start (start + 1)
  rw [← hg] at h6 hgrows6
  have hgrows4 : Grows (above (start + 2) g3.node) (above (start + 2) g4.node) := by
    refine .of_some fun i nd hi => ?_
    rw [above_eq_some] at hi ⊢
    exact ⟨hi.1, by rw [hframe4 i (by omega), hi.2]⟩
  have hgrows : Grows (above (start + 2) g3.node) (above start g'.node) :=
    hgrows4.trans ((hgrows5.trans hgrows6).above (by omega))
  refine ⟨⟨_, above_eq_some.mpr ⟨le_rfl, (h6 start).trans (if_pos rfl)⟩, rfl, rfl⟩, ⟨_,
    above_eq_some.mpr ⟨by omega, (h6 (start + 1)).trans ((if_neg (by omega)).trans hloop5)⟩, rfl,
    rfl, rfl⟩, (stable_points ..).mono hgrows hpush3, hR.mono hgrows hcode3,
    (stable_points ..).mono hgrows hpop3,
    ⟨{ kind := .resultPop }, above_eq_some.mpr ⟨by omega, ?_⟩, rfl, rfl⟩⟩
  rw [h6, if_neg (by omega), hframe5 _ (by omega), hframe4 _ (by omega), hold _ (by omega), hfinish]

theorem attempt_links {g1 : Graph κ ν} {next finish : ℕ} (P : Piece g g1 g.size next R)
    (hregion : g0.Region g) (hfinish : g0.size ≤ finish) (hfinish' : finish < g.size)
    (hg : g' = ((g1.new (.tryStart named)).1.add g1.size next).add g1.size finish) :
    g0.Region g' ∧ g'.size = g1.size + 1 ∧ (∀ i < g.size, g'.node i = g.node i) ∧
      g'.node g1.size = some { kind := .tryStart named, next := some next } ∧
      R (above g.size g'.node) (some finish) := by
  have hsize := P.region.size_le
  have hlt := P.lt
  have hlo := P.lo_le
  have hregion1 := (hregion.trans P.region).new (.tryStart named)
  have hnew := g1.new_node (.tryStart named)
  have hold : ∀ i ≠ g1.size, (g1.new (.tryStart named)).1.node i = g1.node i :=
    fun i hi => new_node_of_ne _ _ hi
  have hsize1 := g1.new_size (.tryStart named)
  generalize (g1.new (.tryStart named)).1 = g2 at *
  have h3 := add_fresh next hnew
  have hregion3 : g0.Region (g2.add g1.size next) :=
    hregion1.add (by omega) (by omega) (by omega) (by omega)
  have hsize3 := g2.add_size g1.size next
  generalize g2.add g1.size next = g3 at *
  have hw3 : g3.Within g.size (g1.size + 1) := by
    intro i hlo' hhi j hj
    by_cases hi : i = g1.size
    · rw [nexts, nextsOf, h3, if_pos hi] at hj
      simp [Node.nexts] at hj
      omega
    · rw [nexts, nextsOf, h3, if_neg hi, hold i hi] at hj
      have := P.within i hlo' (by omega) j hj
      omega
  have hattempt : g3.node g1.size = some { kind := .tryStart named, next := some next } :=
    (h3 _).trans (if_pos rfl)
  have hcode : R (above g.size g3.node) none := P.keep le_rfl fun i _ hi => by
    rw [h3, if_neg (by omega), hold i (by omega)]
  have hlinks := links_add (fun _ _ h => h) g.size g1.size finish (g := g3)
  rw [← hg] at hlinks
  refine ⟨?_, ?_, fun i hi => ?_, hg ▸ add_linked _ _ hattempt rfl,
    P.linkable.link hlinks (reach_next (above_eq_some.mpr ⟨hsize, hattempt⟩) rfl) hcode⟩
  · exact hg ▸ hregion3.add (by omega) (by omega) hfinish (by omega)
  · rw [hg, add_size, hsize3, hsize1]
  · rw [hg, add_frame hw3 hsize (Nat.lt_succ_self _) (by omega), h3, if_neg (by omega),
      hold i (by omega), P.region.frame i hi]

theorem case_nexts (nd : Node κ ν) (key : Key κ) (next j : ℕ)
    (hj : j ∈ Node.nexts { nd with cases := nd.cases ++ [(key, next)] }) :
    j ∈ nd.nexts ∨ j = next := by
  simp only [Node.nexts, List.map_append, List.map_cons, List.map_nil, List.mem_append,
    List.mem_singleton] at hj ⊢
  tauto

/-- The nodes of an array around the code of its element. -/
theorem array_emits {g1 g2 g3 g4 : Graph κ ν}
    (hg1 : g1 = (g.new (.arrayStart named)).1) (hg2 : g2 = (g1.new (.branch selector)).1)
    (hg3 : g3 = (g2.new .arrayPush).1) (P : Piece g3 g4 g3.size n R)
    (hg : g' = ((((((((g4.new .arrayPop).1.new .resultPop).1.add g2.size n).add g2.size
      g4.size).add g2.size g1.size).case g1.size (.bool true) g2.size).add g1.size
      (g4.new .arrayPop).1.size).add g.size g1.size)) :
    g.Region g' ∧ g.size < g'.size ∧
      Points (above g.size g'.node) g.size (.arrayStart named) (some g1.size) ∧
      Branches (above g.size g'.node) g1.size selector [(.bool true, g2.size)]
        (some (g4.new .arrayPop).1.size) ∧
      Points (above g.size g'.node) g2.size .arrayPush (some n) ∧
      R (above g.size g'.node) (some g4.size) ∧
      Points (above g.size g'.node) g4.size .arrayPop (some g1.size) ∧
      Points (above g.size g'.node) (g4.new .arrayPop).1.size .resultPop none := by
  have hsize1 : g1.size = g.size + 1 := hg1 ▸ g.new_size _
  have hsize2 : g2.size = g.size + 2 := by rw [hg2, new_size, hsize1]
  have hsize3 : g3.size = g.size + 3 := by rw [hg3, new_size, hsize2]
  have hregion3 : g.Region g3 := by
    rw [hg3, hg2, hg1]
    exact (((Graph.Region.refl g).new _).new _).new _
  have hstart3 : g3.node g.size = some { kind := .arrayStart named } := by
    rw [hg3, new_node_of_ne _ _ (by omega), hg2, new_node_of_ne _ _ (by omega), hg1,
      new_node]
  have hloop3 : g3.node (g.size + 1) = some { kind := .branch selector } := by
    rw [hg3, new_node_of_ne _ _ (by omega), hg2, ← hsize1, new_node]
  have hpush3 : g3.node (g.size + 2) = some { kind := .arrayPush } := by
    rw [hg3, ← hsize2, new_node]
  have hn := P.lo_le
  have hn' := P.lt
  have hsize5 := g4.new_size .arrayPop
  -- everything is made before the first link
  obtain ⟨g6, hg6⟩ : ∃ g6, g6 = ((g4.new .arrayPop).1.new .resultPop).1 := ⟨_, rfl⟩
  have hsize6 : g6.size = g4.size + 2 := by rw [hg6, new_size, hsize5]
  have hold : ∀ i < g4.size, g6.node i = g4.node i := fun i hi => by
    rw [hg6, new_node_of_ne _ _ (by omega), new_node_of_ne _ _ (by omega)]
  have hold3 : ∀ i < g.size + 3, g6.node i = g3.node i := fun i hi => by
    rw [hold i (by omega), P.region.frame i (by omega)]
  have hpop6 : g6.node g4.size = some { kind := .arrayPop } := by
    rw [hg6, new_node_of_ne _ _ (by omega), new_node]
  have hfinish6 : g6.node (g4.size + 1) = some { kind := .resultPop } := by
    rw [hg6, ← hsize5, new_node]
  have hregion6 : g.Region g6 := by
    rw [hg6]
    exact ((hregion3.trans P.region).new _).new _
  rw [← hg6, hsize1, hsize2, hsize5] at hg
  have hcode6 : R (above (g.size + 3) g6.node) none := P.keep hsize3.ge fun i _ hi => hold i hi
  have hw6 : g6.Within (g.size + 3) g4.size := by
    rw [← hsize3]
    exact P.within.of_eq fun i _ hi => hold i hi
  refine ⟨?_, ?_, ?_⟩
  · subst hg
    refine (((Graph.Region.modify (((hregion6.add ?_ ?_ ?_ ?_).add
        ?_ ?_ ?_ ?_).add ?_ ?_ ?_ ?_) ?_ fun nd j hj => (case_nexts nd _ _ j hj).imp_right
        fun h => ?_).add ?_ ?_ ?_ ?_).add ?_ ?_ ?_ ?_)
    all_goals try simp only [add_size, modify_size]
    all_goals omega
  · rw [hg]
    simp only [add_size, case, modify_size]
    omega
  · rw [hsize1, hsize2, hsize5]
    exact array_links P.linkable (by rw [hold3 _ (by omega), hstart3])
      (by rw [hold3 _ (by omega), hloop3]) (by rw [hold3 _ (by omega), hpush3]) hpop6 hfinish6
      hw6 (by omega) hn' hcode6 hg

theorem setNext_nexts (nd : Node κ ν) (next j : ℕ)
    (hj : j ∈ Node.nexts { nd with next := some next }) : j ∈ nd.nexts ∨ j = next := by
  simp only [Node.nexts, List.mem_append, Option.mem_toList, Option.some.injEq] at hj ⊢
  tauto

mutual

/-- `do_compile` emits the nodes of the entity. -/
theorem Entity.doCompile_emits :
    ∀ (entity : Entity κ ν) (named : Option String) (env : List ℕ) (g g' : Graph κ ν) (r : ℕ),
      entity.doCompile readonly named env g = .ok (g', r) →
      Piece g g' g.size r fun N k => entity.Body readonly N named env r k
  | .primitive p, named, _, g, _, _, h => by
    cases h
    exact Piece.new (.refl g) (.primitive p named)
  | .record entities, named, env, g, _, _, h => by
    obtain ⟨⟨g1, iter⟩, hchain, h⟩ := Except.bind_eq_ok.mp h
    cases h
    have P := (Piece.new (.refl g) (.retain readonly)).move (.new (.refl _) (.recordStart named))
    obtain ⟨lo, Q, P1, hQ⟩ := Entities.compileChain_emits entities env _ _ _ _ _ _ _ P hchain
    have P2 := (P1.extend (.recordFinish named.isSome)).extend .release
    refine P2.congr (Entity.Body.linkable ..) (fun hP => ?_) le_rfl
      (P2.base.trans_lt (P2.lo_le.trans_lt P2.lt))
    obtain ⟨j, ⟨hret, hstart⟩, hj⟩ := hQ _ _ hP.1.1
    exact ⟨_, j, _, _, hret, hstart, hj, hP.1.2, hP.2⟩
  | .sequence entities, named, env, g, _, _, h => by
    obtain ⟨⟨g1, iter⟩, hchain, h⟩ := Except.bind_eq_ok.mp h
    cases h
    obtain ⟨lo, Q, P1, hQ⟩ := Entities.compileChain_emits entities env _ _ _ _ _ _ _
      (Piece.new (.refl g) (.recordStart named)) hchain
    have P2 := P1.extend (.recordFinish named.isSome)
    refine P2.congr (Entity.Body.linkable ..) (fun hP => ?_) le_rfl
      (P2.base.trans_lt (P2.lo_le.trans_lt P2.lt))
    obtain ⟨j, hret, hj⟩ := hQ _ _ hP.1
    exact ⟨j, _, hret, hj, hP.2⟩
  | .union entities, named, env, g, _, _, h => by
    obtain ⟨g1, hmembers, h⟩ := Except.bind_eq_ok.mp h
    cases h
    obtain ⟨Q, P1, hQ⟩ := Entities.compileMembers_emits entities env _ _ _ _ _ _
      (Piece.new (.refl g) (.unionStart named)) hmembers
    have P2 := P1.extend (.unionFinish named.isSome)
    refine P2.congr (Entity.Body.linkable ..) (fun hP => ?_) le_rfl P2.lt
    obtain ⟨j, hret, hj⟩ := hQ _ _ hP.1
    exact ⟨j, _, hret, hj, hP.2⟩
  | .try cases, named, env, g, g', r, h => by
    have hsize := g.new_size (.tryFinish named)
    obtain ⟨hregion, hlo, hlt, hframe, -, htried⟩ := Entities.compileTry_emits cases env named g.size
      none _ _ g' r ((Graph.Region.refl g).new (.tryFinish named)) le_rfl (by omega) nofun h
    refine ⟨hregion, le_rfl, by omega, hlt, hregion.within, ⟨g.size, ?_, ?_, ?_⟩,
      Entity.Body.linkable ..⟩
    · exact (Entities.Tried.stable ..).mono ((Grows.refl _).above (by omega)) htried
    · rintro rfl
      cases h
    · refine ⟨{ kind := .tryFinish named }, above_eq_some.mpr ⟨le_rfl, ?_⟩, rfl, rfl⟩
      rw [hframe g.size (by omega) nofun, new_node]
  | .branch cases default selector, named, env, g, g', _, h => by
    obtain ⟨g2, hcases, h⟩ := Except.bind_eq_ok.mp h
    obtain ⟨g3, hdefault, h⟩ := Except.bind_eq_ok.mp h
    cases h
    have hsize := g.new_size (.branch selector)
    obtain ⟨table, hregion2, hsize2, hframe2, hret2, htable⟩ := Cases.compileCases_emits cases env
      named g.size g _ g2 ((Graph.Region.refl g).new (.branch selector)) le_rfl (by omega) hcases
    rw [new_node] at hret2
    obtain ⟨j, hregion3, hframe3, hret3, hleads⟩ := Default.compileDefault_emits default env g.size g
      g2 g' _ hregion2 le_rfl hret2 rfl hdefault
    have hsize3 := node_lt hret3
    refine ⟨hregion3, le_rfl, le_rfl, hsize3, hregion3.within, ⟨table, j, ⟨_,
      above_eq_some.mpr ⟨le_rfl, hret3⟩, rfl, rfl, rfl⟩, ?_, ?_⟩, Entity.Body.linkable ..⟩
    · refine (Cases.Table.linkable ..).2 table (fun p _ => .of_some (fun i nd hi => ?_) p.2) htable
      rw [above_eq_some] at hi ⊢
      exact ⟨by omega, by rw [hframe3 i (node_lt hi.2) (by omega), hi.2]⟩
    · refine Default.Leads.of_some (fun i nd hi => ?_) hleads
      rw [above_eq_some] at hi ⊢
      exact ⟨by omega, hi.2⟩
  | .array inner entity more, named, env, g, g', r, h => by
    obtain ⟨⟨g4, n⟩, he, h⟩ := Except.bind_eq_ok.mp h
    cases h
    obtain ⟨hregion, hlt, hcode⟩ := array_emits rfl rfl rfl
      (compileWith_emits (Entity.doCompile_emits entity inner) he) rfl
    exact ⟨hregion, le_rfl, le_rfl, hlt, hregion.within, ⟨_, _, _, _, _, hcode⟩,
      Entity.Body.linkable ..⟩
  | .recurs up, named, env, g, g', r, h => by
    cases hup : env[up]? with
    | none => simp [Entity.doCompile, hup] at h
    | some target =>
      simp only [Entity.doCompile, hup] at h
      cases h
      have P := Piece.new (.refl g) (.recurs target)
      exact P.congr (Entity.Body.linkable ..) (fun hP => ⟨target, hup, hP⟩) le_rfl P.lt

theorem Entities.compileChain_emits :
    ∀ (entities : Entities κ ν) (env : List ℕ) (g0 g g' : Graph κ ν) (lo iter last : ℕ)
      (Q : (ℕ → Option (Node κ ν)) → Option ℕ → Prop), Piece g0 g lo iter Q →
      entities.compileChain readonly env iter g = .ok (g', last) →
      ∃ lo' Q', Piece g0 g' lo' last Q' ∧ ∀ N k, Q' N (some k) →
        ∃ j, Q N (some j) ∧ entities.Chain readonly N env j k
  | .nil, _, _, _, _, _, _, _, _, P, h => by
    cases h
    exact ⟨_, _, P, fun N k hQ => ⟨k, hQ, rfl⟩⟩
  | .cons named entity rest, env, _, _, _, _, _, _, _, P, h => by
    obtain ⟨⟨g1, next⟩, he, h⟩ := Except.bind_eq_ok.mp h
    have P1 := P.move (compileWith_emits (Entity.doCompile_emits entity named) he)
    obtain ⟨lo', Q', P', hQ'⟩ := Entities.compileChain_emits rest env _ _ _ _ _ _ _ P1 h
    refine ⟨lo', Q', P', fun N k hQ => ?_⟩
    obtain ⟨j, ⟨hnext, hcode⟩, hrest⟩ := hQ' N k hQ
    exact ⟨next, hnext, j, hcode, hrest⟩

theorem Entities.compileMembers_emits :
    ∀ (entities : Entities κ ν) (env : List ℕ) (g0 g g' : Graph κ ν) (lo ret : ℕ)
      (Q : (ℕ → Option (Node κ ν)) → Option ℕ → Prop), Piece g0 g lo ret Q →
      entities.compileMembers readonly env ret g = .ok g' →
      ∃ Q', Piece g0 g' lo ret Q' ∧ ∀ N k, Q' N (some k) →
        ∃ j, Q N (some j) ∧ entities.Members readonly N env j k
  | .nil, _, _, _, _, _, _, _, P, h => by
    cases h
    exact ⟨_, P, fun N k hQ => ⟨k, hQ, rfl⟩⟩
  | .cons named entity rest, env, _, _, _, _, _, _, P, h => by
    obtain ⟨⟨g1, next⟩, he, h⟩ := Except.bind_eq_ok.mp h
    have P1 := (P.append (compileWith_emits (Entity.doCompile_emits entity named) he)).extend
      .unionRestart
    obtain ⟨Q', P', hQ'⟩ := Entities.compileMembers_emits rest env _ _ _ _ _ _ P1 h
    refine ⟨Q', P', fun N k hQ => ?_⟩
    obtain ⟨j, ⟨⟨hnext, hcode⟩, hrestart⟩, hrest⟩ := hQ' N k hQ
    exact ⟨next, hnext, _, j, hcode, hrestart, hrest⟩

/-- Of the nodes made before, a try changes only where the case before it is caught. -/
theorem Entities.compileTry_emits :
    ∀ (cases : Entities κ ν) (env : List ℕ) (named : Option String) (finish : ℕ)
      (previous : Option ℕ) (g0 g g' : Graph κ ν) (r : ℕ), g0.Region g → g0.size ≤ finish →
      finish < g.size → (∀ p, previous = some p → g0.size ≤ p ∧ p < g.size) →
      cases.compileTry readonly env named finish previous g = .ok (g', r) →
      g0.Region g' ∧ g.size ≤ r ∧ r < g'.size ∧
        (∀ i < g.size, previous ≠ some i → g'.node i = g.node i) ∧
        (∀ p, previous = some p →
          g'.node p = (g.node p).map fun nd => { nd with catchEntity := some r }) ∧
        cases.Tried readonly (above g.size g'.node) env named finish r
  | .nil, _, _, _, none, _, _, _, _, _, _, _, _, h => nomatch h
  | .nil, _, _, _, some previous, g0, g, g', r, hregion, _, _, hp, h => by
    obtain ⟨hp, hp'⟩ := hp previous rfl
    cases h
    have P := Piece.new (.refl g) (.error "cannot find a successful try case")
    obtain ⟨hregion', hframe, hcatch, hnew⟩ := P.modify (f := fun nd => { nd with
      catchEntity := some g.size }) hregion hp hp' (fun nd j hj => .inl hj) rfl
    obtain ⟨nd, hnd, hkind, -⟩ := P.keep le_rfl fun i hi _ => hnew i hi
    refine ⟨hregion', le_rfl, (modify_size ..).symm ▸ P.lt, fun i hi hne => ?_, fun p hpp => ?_,
      nd, hnd, hkind⟩
    · exact hframe i hi fun h => hne (congrArg some h.symm)
    · obtain rfl := Option.some.inj hpp
      exact hcatch
  | .cons named' entity rest, env, named, finish, previous, g0, g, g', _, hregion, hlo, hlt, hp,
      h => by
    obtain ⟨⟨g1, next⟩, he, h⟩ := Except.bind_eq_ok.mp h
    obtain ⟨⟨g4, c⟩, hrest, h⟩ := Except.bind_eq_ok.mp h
    cases h
    have P := compileWith_emits (Entity.doCompile_emits entity named') he
    have hsize := P.region.size_le
    obtain ⟨hregion2, hsize2, hframe2, hattempt2, hcode2⟩ := attempt_links P hregion hlo hlt rfl
    obtain ⟨g3, hg3, hrest⟩ : ∃ g3, g3 = previous.elim
        (((g1.new (.tryStart named)).1.add g1.size next).add g1.size finish)
        (fun p => (((g1.new (.tryStart named)).1.add g1.size next).add g1.size finish).setCatch p
          g1.size) ∧
        rest.compileTry readonly env named finish (some g1.size) g3 = .ok (g', c) :=
      ⟨_, rfl, hrest⟩
    generalize ((g1.new (.tryStart named)).1.add g1.size next).add g1.size finish = g2 at *
    obtain ⟨hregion3, hsize3, hframe3, hcatch3⟩ : g0.Region g3 ∧ g3.size = g2.size ∧
        (∀ i, previous ≠ some i → g3.node i = g2.node i) ∧
        ∀ p, previous = some p →
          g3.node p = (g2.node p).map fun nd => { nd with catchEntity := some g1.size } := by
      subst hg3
      cases previous with
      | none => exact ⟨hregion2, rfl, fun _ _ => rfl, nofun⟩
      | some p =>
        refine ⟨hregion2.modify (hp p rfl).1 fun nd j hj => .inl hj, modify_size ..,
          fun i hi => modify_node_of_ne _ _ fun h => hi (congrArg some h.symm),
          fun q hq => ?_⟩
        obtain rfl := Option.some.inj hq
        exact modify_node_self _ _ _
    obtain ⟨hregion4, hc, hc', hframe4, hcatch4, htried4⟩ := Entities.compileTry_emits rest env named
      finish (some g1.size) g0 g3 _ c hregion3 hlo (by omega)
      (fun p hp => by cases hp; omega) hrest
    have hold : ∀ i < g3.size, i ≠ g1.size → previous ≠ some i → g'.node i = g2.node i := by
      intro i hi hne hprev
      rw [hframe4 i hi (fun h => hne (Option.some.inj h).symm), hframe3 i hprev]
    have hattempt : g'.node g1.size =
        some { kind := .tryStart named, next := some next, catchEntity := some c } := by
      rw [hcatch4 _ rfl, hframe3 _ (fun h => by have := hp _ h; omega), hattempt2]
      rfl
    have hgrows : Grows (above g.size g2.node) (above g.size g'.node) := by
      intro i nd hi
      rw [above_eq_some] at hi
      have hi' := node_lt hi.2
      by_cases hne : i = g1.size
      · subst hne
        rw [hattempt2, Option.some.injEq] at hi
        exact ⟨_, above_eq_some.mpr ⟨hi.1, hattempt⟩, hi.2 ▸ ⟨rfl, rfl, fun _ h => h, nofun⟩⟩
      · refine ⟨nd, above_eq_some.mpr ⟨hi.1, ?_⟩, .refl nd⟩
        rw [hold i (by omega) hne (fun h => by have := hp _ h; omega), hi.2]
    refine ⟨hregion4, hsize, by omega, fun i hi hne => ?_, fun p hpp => ?_, c, next,
      ⟨_, above_eq_some.mpr ⟨hsize, hattempt⟩, rfl, rfl, rfl⟩, ?_, ?_⟩
    · rw [hold i (by omega) (by omega) hne, hframe2 i hi]
    · have := hp p hpp
      rw [hframe4 p (by omega) (by simp; omega), hcatch3 p hpp, hframe2 p (by omega)]
    · exact P.linkable.mono hgrows hcode2
    · exact (Entities.Tried.stable ..).mono ((Grows.refl _).above (by omega)) htried4

/-- Of the nodes made before, the cases change only the table of their branch. -/
theorem Cases.compileCases_emits :
    ∀ (cases : Cases κ ν) (env : List ℕ) (named : Option String) (ret : ℕ)
      (g0 g g' : Graph κ ν), g0.Region g → g0.size ≤ ret → ret < g.size →
      cases.compileCases readonly env named ret g = .ok g' →
      ∃ table, g0.Region g' ∧ g.size ≤ g'.size ∧
        (∀ i < g.size, i ≠ ret → g'.node i = g.node i) ∧
        (g'.node ret = (g.node ret).map fun nd => { nd with cases := nd.cases ++ table }) ∧
        cases.Table readonly (above g.size g'.node) env named table none
  | .nil, _, _, ret, _, g, _, hregion, _, _, h => by
    cases h
    refine ⟨[], hregion, le_rfl, fun _ _ _ => rfl, ?_, rfl⟩
    cases g.node ret <;> simp
  | .cons key named' entity rest, env, named, ret, g0, g, g', hregion, hlo, hlt, h => by
    obtain ⟨g1, next, he, h⟩ : ∃ g1 next, compileWith entity.isCompound
        (entity.doCompile readonly (named.or named')) env g = .ok (g1, next) ∧
        rest.compileCases readonly env named ret (g1.case ret key next) = .ok g' := by
      simp only [Cases.compileCases] at h
      split at h
      · cases h
      · obtain ⟨⟨g1, next⟩, he, h⟩ := Except.bind_eq_ok.mp h
        exact ⟨g1, next, he, h⟩
    have P := compileWith_emits (Entity.doCompile_emits entity (named.or named')) he
    have hsize := P.region.size_le
    have hsize2 : (g1.case ret key next).size = g1.size := modify_size ..
    obtain ⟨hregion2, hframe2, hret2, hnew2⟩ : g0.Region (g1.case ret key next) ∧ _ :=
      P.modify hregion hlo hlt (case_nexts · key next) rfl
    generalize g1.case ret key next = g2 at *
    obtain ⟨table, hregion3, hsize3, hframe3, hret3, htable3⟩ :=
      Cases.compileCases_emits rest env named ret g0 g2 g' hregion2 hlo (by omega) h
    refine ⟨(key, next) :: table, hregion3, by omega, fun i hi hne => ?_, ?_, next, table, rfl,
      ?_, ?_⟩
    · rw [hframe3 i (by omega) hne, hframe2 i hi hne]
    · rw [hret3, hret2, Option.map_map]
      congr 1
      funext nd
      simp
    · exact P.keep le_rfl fun i hlo hi => by
        rw [hframe3 i (by omega) (by omega), hnew2 i hlo]
    · refine (Cases.Table.linkable ..).2 table (fun p _ => .of_some (fun i nd hi => ?_) p.2) htable3
      rw [above_eq_some] at hi ⊢
      exact ⟨by omega, hi.2⟩

theorem Default.compileDefault_emits :
    ∀ (default : Default κ ν) (env : List ℕ) (ret : ℕ) (g0 g g' : Graph κ ν) (nd : Node κ ν),
      g0.Region g → g0.size ≤ ret → g.node ret = some nd → nd.next = none →
      default.compileDefault readonly env ret g = .ok g' →
      ∃ j, g0.Region g' ∧ (∀ i < g.size, i ≠ ret → g'.node i = g.node i) ∧
        g'.node ret = some { nd with next := j } ∧
        default.Leads readonly (above g.size g'.node) env j none
  | .error, _, ret, g0, g, g', nd, hregion, hlo, hret, _, h => by
    cases h
    have P := Piece.new (.refl g) (.error "invalid case")
    obtain ⟨hregion', hframe, hret', hnew⟩ :=
      P.modify hregion hlo (node_lt hret) (setNext_nexts · g.size) rfl
    rw [hret] at hret'
    exact ⟨some g.size, hregion', hframe, hret', g.size, rfl, P.keep le_rfl fun i hi _ => hnew i hi⟩
  | .continue, _, _, _, _, _, nd, hregion, _, hret, hnext, h => by
    cases h
    exact ⟨none, hregion, fun _ _ _ => rfl, by rw [hret, ← hnext], rfl⟩
  | .entity named entity, env, ret, g0, g, g', nd, hregion, hlo, hret, _, h => by
    obtain ⟨⟨g1, next⟩, he, h⟩ := Except.bind_eq_ok.mp h
    cases h
    have P := compileWith_emits (Entity.doCompile_emits entity named) he
    obtain ⟨hregion', hframe, hret', hnew⟩ :=
      P.modify hregion hlo (node_lt hret) (setNext_nexts · next) rfl
    rw [hret] at hret'
    exact ⟨some next, hregion', hframe, hret', next, rfl, P.keep le_rfl fun i hi _ => hnew i hi⟩

end

/-- **The compilation emits the code of the entity.** The nodes made before stay as they were, and
what was made has no continuation yet. -/
theorem compile_emits (h : entity.compile readonly named env g = .ok (g', r)) :
    g.Region g' ∧ entity.Code readonly g'.node named env r none := by
  have P := compileWith_emits (Entity.doCompile_emits entity named) h
  refine ⟨P.region, P.linkable.link (.of_some (fun i nd hi => ?_) r) .refl P.code⟩
  exact (above_eq_some.mp hi).2

end Emits

end Haka.Grammar
