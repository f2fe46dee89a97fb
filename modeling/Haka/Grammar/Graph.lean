import Haka.Lib.Traversal
import Haka.Grammar.Entity

/-!
# The direct graph of a grammar

The nodes of `grammar_dg.lua` and the linking of a node to what follows it. A node is known by its
number in the graph. `add` walks over everything reachable from a node and gives the continuation
to each node on its way that has no next one yet.

`add_spec` says which nodes these are. What later proofs use of it: links that exist stay
(`add_grows`), a dangling node that can be reached is linked (`add_fill`), and if the links of a range
of nodes stay in the range, nothing else changes (`add_frame`).
-/

namespace Haka.Grammar

open List

variable {κ ν : Type}

/-! ## Nodes and graphs -/

/-- The class of a node and the fields its `_apply` and its `next` use. -/
inductive NodeKind (κ ν : Type) where
  | compoundStart
  | compoundFinish
  | retain (readonly : Bool)
  | release
  | recordStart (name : Option String)
  | recordFinish (pop : Bool)
  | unionStart (name : Option String)
  | unionRestart
  | unionFinish (pop : Bool)
  | branch (selector : Scope ν → Option (Key κ))
  | arrayStart (name : Option String)
  | arrayPush
  | arrayPop
  | resultPop
  | tryStart (name : Option String)
  | tryFinish (name : Option String)
  | error (msg : String)
  | recurs (entity : ℕ)
  | primitive (p : Primitive ν) (name : Option String)

/-- A node: `_next`, the `cases` of a branch and the `_catch` of a try. -/
structure Node (κ ν : Type) where
  kind : NodeKind κ ν
  next : Option ℕ := none
  cases : List (Key κ × ℕ) := []
  catchEntity : Option ℕ := none

def Node.nexts (nd : Node κ ν) : List ℕ := nd.cases.map Prod.snd ++ nd.next.toList

/-- `if not self._next then self._next = next end` -/
def Node.link (next : ℕ) (nd : Node κ ν) : Node κ ν := { nd with next := nd.next.or (some next) }

/-- The nodes made so far. -/
structure Graph (κ ν : Type) where
  nodes : List (Node κ ν) := []

namespace Graph

def size (g : Graph κ ν) : ℕ := g.nodes.length

def node (g : Graph κ ν) (i : ℕ) : Option (Node κ ν) := g.nodes[i]?

def new (g : Graph κ ν) (kind : NodeKind κ ν) : Graph κ ν × ℕ :=
  (⟨g.nodes ++ [({ kind } : Node κ ν)]⟩, g.size)

def modify (g : Graph κ ν) (i : ℕ) (f : Node κ ν → Node κ ν) : Graph κ ν := ⟨g.nodes.modify i f⟩

end Graph

def nextsOf (N : ℕ → Option (Node κ ν)) (i : ℕ) : List ℕ := (N i).elim [] Node.nexts

namespace Graph

def nexts (g : Graph κ ν) (i : ℕ) : List ℕ := nextsOf g.node i

/-- The last step of `_add` at a node. -/
def link (next self : ℕ) (g : Graph κ ν) : Graph κ ν := g.modify self (Node.link next)

/-- `Entity:add(next)`, that is `self:_add(next, {})`: the nodes are marked in `set` before their
successors are visited and linked after it. -/
def add (g : Graph κ ν) (self next : ℕ) : Graph κ ν :=
  (Traversal.walk nexts (link next) (g.size + 1) self (g, [])).1

def case (g : Graph κ ν) (self : ℕ) (key : Key κ) (entity : ℕ) : Graph κ ν :=
  g.modify self fun nd => { nd with cases := nd.cases ++ [(key, entity)] }

/-- `ret._next = next` -/
def setNext (g : Graph κ ν) (self next : ℕ) : Graph κ ν :=
  g.modify self fun nd => { nd with next := some next }

/-- `TryStart:catch(catch)` -/
def setCatch (g : Graph κ ν) (self entity : ℕ) : Graph κ ν :=
  g.modify self fun nd => { nd with catchEntity := some entity }

/-! ## Lookups -/

variable {g : Graph κ ν} {i : ℕ}

theorem node_lt {nd : Node κ ν} (h : g.node i = some nd) : i < g.size :=
  (List.getElem?_eq_some_iff.mp h).1

theorem node_of_size_le (h : g.size ≤ i) : g.node i = none :=
  getElem?_eq_none h

@[simp] theorem new_size (g : Graph κ ν) (kind : NodeKind κ ν) :
    (g.new kind).1.size = g.size + 1 := by
  simp [new, size]

theorem new_node (g : Graph κ ν) (kind : NodeKind κ ν) :
    (g.new kind).1.node g.size = some { kind } := by
  simp [new, node, size]

theorem new_node_of_ne (g : Graph κ ν) (kind : NodeKind κ ν) (h : i ≠ g.size) :
    (g.new kind).1.node i = g.node i := by
  rcases Nat.lt_or_gt_of_ne h with h | h
  · exact getElem?_append_left h
  · rw [node_of_size_le h.le, node_of_size_le]
    rw [new_size]; omega

@[simp] theorem modify_size (g : Graph κ ν) (i : ℕ) (f : Node κ ν → Node κ ν) :
    (g.modify i f).size = g.size := by
  simp [modify, size]

theorem modify_node (g : Graph κ ν) (i j : ℕ) (f : Node κ ν → Node κ ν) :
    (g.modify i f).node j = if i = j then (g.node j).map f else g.node j := by
  unfold modify node
  rw [getElem?_modify]
  split_ifs with h
  · rfl
  · simp

theorem modify_node_self (g : Graph κ ν) (i : ℕ) (f : Node κ ν → Node κ ν) :
    (g.modify i f).node i = (g.node i).map f := by
  rw [modify_node, if_pos rfl]

theorem modify_node_of_ne (g : Graph κ ν) {j : ℕ} (f : Node κ ν → Node κ ν) (h : j ≠ i) :
    (g.modify i f).node j = g.node j := by
  rw [modify_node, if_neg (Ne.symm h)]

/-! ## What `add` links -/

theorem nexts_modify (g : Graph κ ν) {j : ℕ} (f : Node κ ν → Node κ ν) (h : j ≠ i) :
    (g.modify i f).nexts j = g.nexts j := by
  rw [nexts, nextsOf, modify_node_of_ne g f h, nexts, nextsOf]

theorem link_link (next : ℕ) (nd : Node κ ν) :
    Node.link next (Node.link next nd) = Node.link next nd := by
  cases h : nd.next <;> simp [Node.link, h]

theorem leaveAll_node (next : ℕ) (i : ℕ) : ∀ (l : List ℕ) (g : Graph κ ν),
      (Traversal.leaveAll (link next) l g).node i =
        if i ∈ l then (g.node i).map (Node.link next) else g.node i
  | [], _ => by simp [Traversal.leaveAll]
  | j :: l, g => by
    have ih := leaveAll_node next i l (link next j g)
    rw [Traversal.leaveAll] at ih ⊢
    rw [foldl_cons, ih, link, modify_node]
    by_cases hj : i = j
    · subst hj
      simp only [if_true, mem_cons_self, Option.map_map]
      split_ifs
      · congr 1
        exact funext (link_link next)
      · rfl
    · simp [hj, Ne.symm hj]

/-- The nodes `V` are the ones `add` walks over, and so the ones it links. -/
structure Added (g : Graph κ ν) (root next : ℕ) (V : List ℕ) : Prop where
  root_mem : root ∈ V
  closed : ∀ i ∈ V, ∀ j ∈ g.nexts i, j ∈ V
  least : ∀ C : ℕ → Prop, C root → (∀ i, C i → ∀ j ∈ g.nexts i, C j) → ∀ i ∈ V, C i
  node : ∀ i, (g.add root next).node i =
    if i ∈ V then (g.node i).map (Node.link next) else g.node i

theorem add_spec (g : Graph κ ν) (self next : ℕ) : ∃ V, g.Added self next V := by
  have huniv : ∀ i ∉ range g.size, g.nexts i = [] := by
    intro i hi
    rw [mem_range, not_lt] at hi
    rw [nexts, nextsOf, node_of_size_le hi, Option.elim_none]
  have hlink : ∀ i (g : Graph κ ν) j, j ≠ i → nexts (link next i g) j = nexts g j :=
    fun i g j hj => nexts_modify g _ hj
  obtain ⟨V, set, hwalk, -, hV⟩ := Traversal.walk_visited hlink huniv (g.size + 1) self g []
    (fun _ _ => rfl) (Nat.lt_succ_of_le ((length_filter_le _ _).trans_eq length_range))
  refine ⟨V, by simpa using hV.reached self (by simp), fun i hi j hj => ?_,
    fun C hself hC => hV.least C (by simpa using hself) (fun i _ => hC i), fun i => ?_⟩
  · simpa using hV.closed i hi j hj
  · rw [add, hwalk, leaveAll_node]

end Graph

/-! ## Graphs that grow -/

/-- A node to which links were added. -/
structure Node.Grows (nd nd' : Node κ ν) : Prop where
  kind : nd'.kind = nd.kind
  cases : nd'.cases = nd.cases
  next : ∀ j, nd.next = some j → nd'.next = some j
  catchEntity : ∀ j, nd.catchEntity = some j → nd'.catchEntity = some j

/-- Every node of `N` is in `N'`, with its links. -/
def Grows (N N' : ℕ → Option (Node κ ν)) : Prop :=
  ∀ i nd, N i = some nd → ∃ nd', N' i = some nd' ∧ nd.Grows nd'

/-- `N'` can be reached from `N` along the links. -/
def Reach (N : ℕ → Option (Node κ ν)) : ℕ → ℕ → Prop :=
  Relation.ReflTransGen fun i j => j ∈ nextsOf N i

/-- The nodes from the number `lo` on. -/
def above (lo : ℕ) (N : ℕ → Option (Node κ ν)) (i : ℕ) : Option (Node κ ν) :=
  if lo ≤ i then N i else none

section Grows

variable {N N' N'' : ℕ → Option (Node κ ν)}

theorem Node.Grows.refl (nd : Node κ ν) : nd.Grows nd := ⟨rfl, rfl, fun _ h => h, fun _ h => h⟩

theorem Grows.of_some (h : ∀ i nd, N i = some nd → N' i = some nd) : Grows N N' :=
  fun i nd hi => ⟨nd, h i nd hi, .refl nd⟩

theorem Grows.refl (N : ℕ → Option (Node κ ν)) : Grows N N := .of_some fun _ _ h => h

theorem Grows.trans (h : Grows N N') (h' : Grows N' N'') : Grows N N'' := by
  intro i nd hi
  obtain ⟨nd', hi', hg⟩ := h i nd hi
  obtain ⟨nd'', hi'', hg'⟩ := h' i nd' hi'
  exact ⟨nd'', hi'', hg'.kind.trans hg.kind, hg'.cases.trans hg.cases,
    fun j hj => hg'.next j (hg.next j hj),
    fun j hj => hg'.catchEntity j (hg.catchEntity j hj)⟩

theorem above_eq_some {lo i : ℕ} {nd : Node κ ν} :
    above lo N i = some nd ↔ lo ≤ i ∧ N i = some nd := by
  unfold above
  split_ifs with h <;> simp [h]

theorem Grows.above (h : Grows N N') {lo lo' : ℕ} (hlo : lo' ≤ lo) :
    Grows (above lo N) (above lo' N') := by
  intro i nd hi
  rw [above_eq_some] at hi
  obtain ⟨nd', hi', hg⟩ := h i nd hi.2
  exact ⟨nd', above_eq_some.mpr ⟨hlo.trans hi.1, hi'⟩, hg⟩

theorem above_grows (lo : ℕ) (N : ℕ → Option (Node κ ν)) : Grows (above lo N) N :=
  .of_some fun _ _ h => (above_eq_some.mp h).2

theorem Grows.nexts (h : Grows N N') {i j : ℕ} (hj : j ∈ nextsOf N i) : j ∈ nextsOf N' i := by
  unfold nextsOf at hj ⊢
  cases hi : N i with
  | none => simp [hi] at hj
  | some nd =>
    obtain ⟨nd', hi', hg⟩ := h i nd hi
    rw [hi, Option.elim_some, Node.nexts, mem_append, Option.mem_toList] at hj
    rw [hi', Option.elim_some, Node.nexts, mem_append, Option.mem_toList, hg.cases]
    exact hj.imp_right (hg.next j)

theorem Reach.mono (h : Grows N N') {i j : ℕ} (hij : Reach N i j) : Reach N' i j :=
  Relation.ReflTransGen.mono (fun _ _ => h.nexts) i j hij

end Grows

namespace Graph

variable {g : Graph κ ν} {i lo hi : ℕ}

variable {self next : ℕ} {V : List ℕ}

theorem Added.grows (h : g.Added self next V) : Grows g.node (g.add self next).node := by
  intro i nd hi
  rw [h.node, hi]
  split_ifs
  · refine ⟨nd.link next, rfl, rfl, rfl, fun j hj => ?_, fun j hj => hj⟩
    simp [Node.link, hj]
  · exact ⟨nd, rfl, .refl nd⟩

theorem add_grows (g : Graph κ ν) (self next : ℕ) : Grows g.node (g.add self next).node := by
  obtain ⟨V, hV⟩ := g.add_spec self next
  exact hV.grows

theorem Added.reach {y : ℕ} (h : g.Added self next V) (hy : Reach g.node self y) : y ∈ V := by
  induction hy with
  | refl => exact h.root_mem
  | tail _ hxy ih => exact h.closed _ ih _ hxy

variable {nd : Node κ ν}

theorem add_fill {y : ℕ} (next : ℕ) (hy : Reach g.node self y)
    (hnd : g.node y = some nd) (hnext : nd.next = none) :
    (g.add self next).node y = some { nd with next := some next } := by
  obtain ⟨V, hV⟩ := g.add_spec self next
  rw [hV.node, if_pos (hV.reach hy), hnd]
  simp [Node.link, hnext]

theorem add_linked {j : ℕ} (self next : ℕ) (hnd : g.node i = some nd) (hnext : nd.next = some j) :
    (g.add self next).node i = some nd := by
  obtain ⟨V, hV⟩ := g.add_spec self next
  rw [hV.node, hnd]
  split_ifs
  · cases nd
    simp_all [Node.link]
  · rfl

/-- The links of the nodes from `lo` to `hi` stay there. -/
def Within (g : Graph κ ν) (lo hi : ℕ) : Prop :=
  ∀ i, lo ≤ i → i < hi → ∀ j ∈ g.nexts i, lo ≤ j ∧ j < hi

theorem add_frame (hw : g.Within lo hi) (hlo : lo ≤ self) (hhi : self < hi)
    (hi' : ¬(lo ≤ i ∧ i < hi)) :
    (g.add self next).node i = g.node i := by
  obtain ⟨V, hV⟩ := g.add_spec self next
  rw [hV.node, if_neg]
  exact fun hiV => hi' (hV.least (fun i => lo ≤ i ∧ i < hi) ⟨hlo, hhi⟩
    (fun i hi j => hw i hi.1 hi.2 j) i hiV)

theorem add_nexts {j : ℕ} (hj : j ∈ (g.add self next).nexts i) : j ∈ g.nexts i ∨ j = next := by
  obtain ⟨V, hV⟩ := g.add_spec self next
  rw [nexts, nextsOf, hV.node] at hj
  rw [nexts, nextsOf]
  split_ifs at hj
  · cases hi : g.node i with
    | none => simp [hi] at hj
    | some nd => cases hn : nd.next <;> simp_all [Node.nexts, Node.link]
  · exact .inl hj

theorem Within.add (hw : g.Within lo hi) (hlo : lo ≤ next) (hhi : next < hi) :
    (g.add self next).Within lo hi := by
  intro i hlo' hhi' j hj
  rcases add_nexts hj with hj | rfl
  · exact hw i hlo' hhi' j hj
  · exact ⟨hlo, hhi⟩

theorem Within.of_eq {g' : Graph κ ν} (hw : g.Within lo hi)
    (h : ∀ i, lo ≤ i → i < hi → g'.node i = g.node i) : g'.Within lo hi := by
  intro i hlo hhi j hj
  rw [nexts, nextsOf, h i hlo hhi] at hj
  exact hw i hlo hhi j hj

theorem Within.append {mid : ℕ} (h : g.Within lo mid) (h' : g.Within mid hi) (hlo : lo ≤ mid)
    (hhi : mid ≤ hi) : g.Within lo hi := by
  intro i hi1 hi2 j hj
  by_cases hm : i < mid
  · have := h i hi1 hm j hj
    omega
  · have := h' i (by omega) hi2 j hj
    omega

theorem add_fresh {kind : NodeKind κ ν} (next : ℕ) (h : g.node self = some { kind }) (i : ℕ) :
    (g.add self next).node i = if i = self then some { kind, next := some next } else g.node i := by
  have hw : g.Within self (self + 1) := by
    intro j hlo hhi l hl
    obtain rfl : j = self := by omega
    rw [nexts, nextsOf, h] at hl
    simp [Node.nexts] at hl
  split_ifs with hi
  · subst hi
    exact add_fill next .refl h rfl
  · exact add_frame hw le_rfl (Nat.lt_succ_self _) (by omega)

theorem add_size (g : Graph κ ν) (self next : ℕ) : (g.add self next).size = g.size := by
  obtain ⟨V, hV⟩ := g.add_spec self next
  have hnone : ∀ i, (g.add self next).node i = none ↔ g.node i = none := by
    intro i
    rw [hV.node]
    split_ifs <;> simp
  have key : ∀ i, (g.add self next).size ≤ i ↔ g.size ≤ i := fun i => by
    simpa only [node, size, getElem?_eq_none_iff] using hnone i
  exact le_antisymm ((key _).mpr le_rfl) ((key _).mp le_rfl)

/-! ## Regions -/

/-- `g'` is `g` with new nodes whose links stay among the new nodes. -/
structure Region (g g' : Graph κ ν) : Prop where
  size_le : g.size ≤ g'.size
  frame : ∀ i < g.size, g'.node i = g.node i
  within : g'.Within g.size g'.size

namespace Region

variable {g g' g'' : Graph κ ν}

theorem refl (g : Graph κ ν) : Region g g :=
  ⟨le_rfl, fun _ _ => rfl, fun _ hlo hhi => absurd hhi (not_lt.mpr hlo)⟩

theorem trans (h : Region g g') (h' : Region g' g'') : Region g g'' where
  size_le := h.size_le.trans h'.size_le
  frame i hi := by rw [h'.frame i (hi.trans_le h.size_le), h.frame i hi]
  within := (h.within.of_eq fun i _ hi => h'.frame i hi).append h'.within h.size_le h'.size_le

theorem new (h : Region g g') (kind : NodeKind κ ν) : Region g (g'.new kind).1 := by
  refine h.trans ⟨by simp, fun i hi => new_node_of_ne _ _ hi.ne, fun i hlo hhi j hj => ?_⟩
  have hi : i = g'.size := by rw [new_size] at hhi; omega
  rw [nexts, nextsOf, hi, new_node] at hj
  simp [Node.nexts] at hj

theorem add (h : Region g g') (hself : g.size ≤ self) (hself' : self < g'.size)
    (hlo : g.size ≤ next) (hhi : next < g'.size) : Region g (g'.add self next) where
  size_le := h.size_le.trans_eq (add_size ..).symm
  frame i hi := by
    rw [add_frame h.within hself hself' (fun hr => absurd hi (not_lt.mpr hr.1)), h.frame i hi]
  within := by
    rw [add_size]
    exact h.within.add hlo hhi

theorem modify (h : Region g g') {f : Node κ ν → Node κ ν} (hself : g.size ≤ self)
    (hf : ∀ nd, ∀ j ∈ (f nd).nexts, j ∈ nd.nexts ∨ g.size ≤ j ∧ j < g'.size) :
    Region g (g'.modify self f) where
  size_le := h.size_le.trans_eq (modify_size ..).symm
  frame i hi := by rw [modify_node_of_ne _ _ (hi.trans_le hself).ne, h.frame i hi]
  within i hlo hhi j hj := by
    rw [modify_size] at hhi ⊢
    by_cases hi : i = self
    · subst hi
      rw [nexts, nextsOf, modify_node_self] at hj
      cases hnd : g'.node i with
      | none => simp [hnd] at hj
      | some nd =>
        rw [hnd, Option.map_some, Option.elim_some] at hj
        rcases hf nd j hj with hj | hj
        · refine h.within i hlo hhi j ?_
          rwa [nexts, nextsOf, hnd, Option.elim_some]
        · exact hj
    · rw [nexts_modify _ _ hi] at hj
      exact h.within i hlo hhi j hj

end Region

end Graph

end Haka.Grammar
