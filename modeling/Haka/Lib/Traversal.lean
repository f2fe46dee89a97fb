import Mathlib.Tactic

/-!
# Depth-first walks that change what they walk over

`walk` visits every vertex it can reach, depth first, with the set of the visited ones, and changes
a state at each vertex after the successors of the vertex were visited. The successors are read
from that state, so the walk may change the very edges it follows.

As long as leaving a vertex changes no successors but its own, the walk visits what a walk over
the first state would visit: `walk_visited` gives the visited vertices as a list in the order they
were left, closed under the first successors and least among the sets that are.
-/

namespace Traversal

variable {σ α : Type*}

/-- Visits `a`, its successors and theirs, and runs `leave` on each vertex when its successors are
done; the second part is the set of the vertices visited. -/
def walk [DecidableEq α] (nexts : σ → α → List α) (leave : α → σ → σ) :
    ℕ → α → σ × List α → σ × List α
  | 0, _, w => w
  | fuel + 1, a, (s, set) =>
    if a ∈ set then (s, set)
    else
      let w := (nexts s a).foldl (fun w b => walk nexts leave fuel b w) (s, a :: set)
      (leave a w.1, w.2)

/-- Runs `leave` on the vertices of a list, in this order. -/
def leaveAll (leave : α → σ → σ) (l : List α) (s : σ) : σ :=
  l.foldl (fun s a => leave a s) s

/-- The vertices `l` are the ones a walk from `roots` adds to the visited ones of `set`. -/
structure Visited (succ : α → List α) (set roots l : List α) : Prop where
  fresh : ∀ a ∈ l, a ∉ set
  reached : ∀ a ∈ roots, a ∈ l ∨ a ∈ set
  closed : ∀ a ∈ l, ∀ b ∈ succ a, b ∈ l ∨ b ∈ set
  least : ∀ C : α → Prop, (∀ a ∈ roots, C a) →
    (∀ a, a ∉ set → C a → ∀ b ∈ succ a, C b) → ∀ a ∈ l, C a

section Visited

variable {succ : α → List α} {set set' roots : List α}

theorem visited_nil : Visited succ set [] [] :=
  ⟨by simp, by simp, by simp, by simp⟩

theorem visited_seen {a : α} (ha : a ∈ set) : Visited succ set [a] [] :=
  ⟨by simp, by simpa using ha, by simp, by simp⟩

theorem Visited.append {a : α} {l1 l2 : List α} (h1 : Visited succ set [a] l1)
    (hset : ∀ b, b ∈ set' ↔ b ∈ l1 ∨ b ∈ set) (h2 : Visited succ set' roots l2) :
    Visited succ set (a :: roots) (l1 ++ l2) where
  fresh b hb hbs := by
    rcases List.mem_append.mp hb with hb | hb
    · exact h1.fresh b hb hbs
    · exact h2.fresh b hb ((hset b).mpr (.inr hbs))
  reached b hb := by
    rcases List.mem_cons.mp hb with rfl | hb
    · have := h1.reached b (by simp)
      grind
    · have := h2.reached b hb
      grind
  closed b hb c hc := by
    rcases List.mem_append.mp hb with hb | hb
    · have := h1.closed b hb c hc
      grind
    · have := h2.closed b hb c hc
      grind
  least C hroots hC b hb := by
    rcases List.mem_append.mp hb with hb | hb
    · exact h1.least C (fun x hx => hroots x (by grind)) hC b hb
    · exact h2.least C (fun x hx => hroots x (by grind))
        (fun x hx => hC x (fun hxs => hx ((hset x).mpr (.inr hxs)))) b hb

theorem Visited.leave {a : α} {l : List α} (ha : a ∉ set)
    (h : Visited succ (a :: set) (succ a) l) : Visited succ set [a] (l ++ [a]) where
  fresh b hb hbs := by
    rcases List.mem_append.mp hb with hb | hb
    · exact h.fresh b hb (List.mem_cons_of_mem _ hbs)
    · exact ha (by grind)
  reached b hb := by grind
  closed b hb c hc := by
    rcases List.mem_append.mp hb with hb | hb
    · have := h.closed b hb c hc
      grind
    · have := h.reached c (by grind)
      grind
  least C hroots hC b hb := by
    have hCa : C a := hroots a (by simp)
    rcases List.mem_append.mp hb with hb | hb
    · exact h.least C (hC a ha hCa) (fun x hx => hC x (by grind)) b hb
    · grind

end Visited

section Walk

variable {nexts : σ → α → List α} {leave : α → σ → σ} {succ : α → List α} {univ : List α}

theorem nexts_leaveAll (hleave : ∀ a s b, b ≠ a → nexts (leave a s) b = nexts s b) {b : α} :
    ∀ {l : List α} {s : σ}, b ∉ l → nexts (leaveAll leave l s) b = nexts s b
  | [], _, _ => rfl
  | a :: l, s, hb => by
    exact (nexts_leaveAll hleave (List.not_mem_of_not_mem_cons hb)).trans
      (hleave a s b (List.ne_of_not_mem_cons hb))

variable [DecidableEq α]

/-- How many vertices of `univ` were not visited yet. -/
def unvisited (univ set : List α) : ℕ := (univ.filter (· ∉ set)).length

theorem unvisited_le {set set' : List α} (h : ∀ a ∈ set, a ∈ set') :
    unvisited univ set' ≤ unvisited univ set := by
  refine List.Sublist.length_le (List.monotone_filter_right univ fun a ha => ?_)
  simp only [decide_eq_true_eq] at ha ⊢
  exact fun hs => ha (h a hs)

theorem unvisited_lt {a : α} {set : List α} (hu : a ∈ univ) (ha : a ∉ set) :
    unvisited univ (a :: set) < unvisited univ set := by
  have hf : univ.filter (· ∉ a :: set) = (univ.filter (· ∉ set)).filter (· ≠ a) := by
    simp [List.mem_cons, not_or]
  rw [unvisited, hf]
  exact List.length_filter_lt_length_iff_exists.mpr ⟨a, by simpa using ⟨hu, ha⟩, by simp⟩

/-- The walk over a list of vertices, from what a walk of one vertex does. -/
theorem walkAll_visited (hleave : ∀ a s b, b ≠ a → nexts (leave a s) b = nexts s b) {fuel : ℕ}
    (hwalk : ∀ a s set, (∀ b ∉ set, nexts s b = succ b) → unvisited univ set < fuel →
      ∃ l set', walk nexts leave fuel a (s, set) = (leaveAll leave l s, set') ∧
        (∀ b, b ∈ set' ↔ b ∈ l ∨ b ∈ set) ∧ Visited succ set [a] l) :
    ∀ (roots : List α) (s : σ) (set : List α), (∀ b ∉ set, nexts s b = succ b) →
      unvisited univ set < fuel →
      ∃ l set', roots.foldl (fun w b => walk nexts leave fuel b w) (s, set) =
          (leaveAll leave l s, set') ∧
        (∀ b, b ∈ set' ↔ b ∈ l ∨ b ∈ set) ∧ Visited succ set roots l := by
  intro roots
  induction roots with
  | nil =>
    intro s set _ _
    exact ⟨[], set, rfl, by simp, visited_nil⟩
  | cons a roots ih =>
    intro s set hs hfuel
    obtain ⟨l1, set1, h1, hset1, hv1⟩ := hwalk a s set hs hfuel
    have hs1 : ∀ b ∉ set1, nexts (leaveAll leave l1 s) b = succ b := by
      intro b hb
      rw [hset1, not_or] at hb
      rw [nexts_leaveAll hleave hb.1, hs b hb.2]
    have hfuel1 : unvisited univ set1 < fuel :=
      (unvisited_le fun b hb => (hset1 b).mpr (.inr hb)).trans_lt hfuel
    obtain ⟨l2, set2, h2, hset2, hv2⟩ := ih _ set1 hs1 hfuel1
    refine ⟨l1 ++ l2, set2, ?_, fun b => ?_, hv1.append hset1 hv2⟩
    · rw [List.foldl_cons, h1, h2, leaveAll, leaveAll, leaveAll, List.foldl_append]
    · rw [hset2, hset1, List.mem_append]
      tauto

/-- A walk with more fuel than there are vertices to visit leaves exactly the vertices that can be
reached over the first successors. -/
theorem walk_visited (hleave : ∀ a s b, b ≠ a → nexts (leave a s) b = nexts s b)
    (huniv : ∀ a ∉ univ, succ a = []) :
    ∀ (fuel : ℕ) (a : α) (s : σ) (set : List α), (∀ b ∉ set, nexts s b = succ b) →
      unvisited univ set < fuel →
      ∃ l set', walk nexts leave fuel a (s, set) = (leaveAll leave l s, set') ∧
        (∀ b, b ∈ set' ↔ b ∈ l ∨ b ∈ set) ∧ Visited succ set [a] l := by
  intro fuel
  induction fuel with
  | zero => intro a s set _ h; omega
  | succ fuel ih =>
    intro a s set hs hfuel
    by_cases ha : a ∈ set
    · exact ⟨[], set, by simp [walk, ha, leaveAll], by simp, visited_seen ha⟩
    · have hs' : ∀ b ∉ a :: set, nexts s b = succ b :=
        fun b hb => hs b (List.not_mem_of_not_mem_cons hb)
      obtain ⟨l, set', hl, hset', hv⟩ : ∃ l set', (succ a).foldl
          (fun w b => walk nexts leave fuel b w) (s, a :: set) = (leaveAll leave l s, set') ∧
          (∀ b, b ∈ set' ↔ b ∈ l ∨ b ∈ a :: set) ∧ Visited succ (a :: set) (succ a) l := by
        by_cases hu : a ∈ univ
        · exact walkAll_visited hleave ih (succ a) s (a :: set) hs'
            (by have := unvisited_lt hu ha; omega)
        · rw [huniv a hu]
          exact ⟨[], a :: set, rfl, by simp, visited_nil⟩
      refine ⟨l ++ [a], set', ?_, fun b => ?_, hv.leave ha⟩
      · simp only [walk, ha, if_false, hs a ha, hl, leaveAll, List.foldl_append,
          List.foldl_cons, List.foldl_nil]
      · rw [hset', List.mem_append, List.mem_cons, List.mem_singleton]
        tauto

end Walk

end Traversal
