import Haka.Lib.Machine

/-!
# Vectors

`container/vector.c`. An allocation either fails or gives the values of the cells that are new. When
a growth fails, `vector_reserve` has freed the elements and `vector_resize` has changed the count.
-/

namespace Haka

open List Machine

/-- `struct vector`. `data` gives the value of each cell, and nothing if it is `NULL`. -/
structure Vector (α : Type*) where
  count : ℕ
  allocatedCount : ℕ
  data : Option (ℕ → α)
  destruct : Bool

variable {α : Type*}

/-- The outcome of an allocation. -/
abbrev Alloc (α : Type*) := Option (ℕ → α)

/-- `realloc` of `old` cells to `count`; a size of zero frees. -/
def realloc (data : Option (ℕ → α)) (old count : ℕ) (alloc : Alloc α) : Option (ℕ → α) :=
  if count = 0 then none
  else alloc.map fun new => data.elim new fun cells i => if i < old then cells i else new i

def Vector.elements (v : Vector α) : List α :=
  v.data.elim [] fun cells => (range v.count).map cells

def vectorReserve (v : Vector α) (count : ℕ) (alloc : Alloc α) : Vector α × Bool :=
  let count := if count < v.count then v.count else count
  if count ≠ v.allocatedCount then
    let data := realloc v.data v.allocatedCount count alloc
    if data.isNone ∧ count > 0 then ({ v with data := none }, false)
    else ({ v with allocatedCount := count, data := data }, true)
  else (v, true)

/-- `vector_resize`, with the elements that are destructed. -/
def vectorResize (v : Vector α) (count : ℕ) (alloc : Alloc α) : (Vector α × Bool) × List α :=
  if count < v.count then
    (({ v with count := count }, true), if v.destruct then v.elements.drop count else [])
  else if count > v.count then
    if count ≤ v.allocatedCount then (({ v with count := count }, true), [])
    else (vectorReserve { v with count := count } count alloc, [])
  else ((v, true), [])

def vectorGrow (v : Vector α) (alloc : Alloc α) : Vector α × Bool :=
  vectorReserve v (v.count * 2 + 1) alloc

/-- `_vector_push`, with the index of the new element. -/
def vectorPush (v : Vector α) (alloc : Alloc α) : Vector α × Option ℕ :=
  let (v, ok) := if v.count = v.allocatedCount then vectorGrow v alloc else (v, true)
  if ok then
    let v := (vectorResize v (v.count + 1) alloc).1.1
    (v, some (v.count - 1))
  else (v, none)

/-- `vector_destroy`, with the elements that are destructed. -/
def vectorDestroy (v : Vector α) : Vector α × List α :=
  let r := vectorResize v 0 none
  ((vectorReserve r.1.1 0 none).1, r.2)

inductive VectorCall
  | push
  | resize (count : ℕ)
  | reserve (count : ℕ)

/-- A call: the vector after it, whether it succeeds, and the elements that are destructed. -/
def VectorCall.run (v : Vector α) (alloc : Alloc α) : VectorCall → (Vector α × Bool) × List α
  | .push => (((vectorPush v alloc).1, (vectorPush v alloc).2.isSome), [])
  | .resize count => vectorResize v count alloc
  | .reserve count => (vectorReserve v count alloc, [])

/-! ## A failed call -/

structure Vector.Valid (v : Vector α) : Prop where
  count_le : v.count ≤ v.allocatedCount
  data_iff : v.data.isSome ↔ 0 < v.allocatedCount

/-- If the call allocates and the allocation fails, there is nothing to lose. -/
def VectorCall.Spares (v : Vector α) (alloc : Alloc α) : VectorCall → Prop
  | .push => alloc.isSome ∨ v.count < v.allocatedCount ∨ v.allocatedCount = 0
  | .resize count => alloc.isSome ∨ count ≤ v.allocatedCount
  | .reserve count => alloc.isSome ∨ max count v.count = v.allocatedCount ∨
    max count v.count = 0 ∨ v.allocatedCount = 0

/-- What a call may do: a failed one nothing, and each element is kept or destructed. -/
structure Vector.Step (v : Vector α) (r : (Vector α × Bool) × List α) : Prop where
  valid : r.1.1.Valid
  destruct : r.1.1.destruct = v.destruct
  failed : r.1.2 = false → r = ((v, false), [])
  kept : v.destruct → r.1.1.elements ++ r.2 ~ v.elements ++ r.1.1.elements.drop v.count

variable {v v' : Vector α} {alloc : Alloc α} {n i : ℕ}

theorem elements_length_le : v.elements.length ≤ v.count := by
  cases hd : v.data <;> simp [Vector.elements, hd]

theorem Vector.Step.refl (h : v.Valid) : v.Step ((v, false), []) where
  valid := h
  destruct := rfl
  failed _ := rfl
  kept _ := by simp [drop_eq_nil_of_le elements_length_le]

theorem elements_eq_take (hle : v.count ≤ v'.count)
    (hcells : ∀ i < v.count, v.data.map (· i) = v'.data.map (· i)) :
    v.elements = v'.elements.take v.count := by
  obtain hzero | hpos := Nat.eq_zero_or_pos v.count
  · cases hd : v.data <;> simp [Vector.elements, hd, hzero]
  have hfirst := hcells 0 hpos
  cases hd : v.data <;> cases hd' : v'.data <;> rw [hd, hd'] at hfirst
  · simp [Vector.elements, hd, hd']
  · cases hfirst
  · cases hfirst
  · simpa [Vector.elements, hd, hd', ← map_take, take_range, hle] using hcells

theorem Vector.Step.of_cells (h' : v'.Valid) (hd : v'.destruct = v.destruct)
    (hle : v.count ≤ v'.count) (hcells : ∀ i < v.count, v.data.map (· i) = v'.data.map (· i)) :
    v.Step ((v', true), []) where
  valid := h'
  destruct := hd
  failed hf := by cases hf
  kept _ := by rw [append_nil, elements_eq_take hle hcells, take_append_drop]

/-- A reservation that does not fail. -/
theorem vectorReserve_of_some (hdata : v.data.isSome ↔ 0 < v.allocatedCount)
    (h : alloc.isSome ∨ max n v.count = v.allocatedCount ∨ max n v.count = 0) :
    ∃ data, vectorReserve v n alloc =
      ({ v with allocatedCount := max n v.count, data := data }, true) ∧
      (data.isSome ↔ 0 < max n v.count) ∧
      ∀ i < v.allocatedCount, i < max n v.count → v.data.map (· i) = data.map (· i) := by
  have hmax : (if n < v.count then v.count else n) = max n v.count := by
    split <;> omega
  simp only [vectorReserve, hmax]
  by_cases heq : max n v.count = v.allocatedCount
  · exact ⟨v.data, by simp [heq], heq ▸ hdata, fun _ _ _ => rfl⟩
  rw [if_pos heq]
  by_cases hzero : max n v.count = 0
  · exact ⟨none, by simp [realloc, hzero], by simp [hzero], by simp [hzero]⟩
  obtain ⟨new, rfl⟩ := Option.isSome_iff_exists.1 (h.resolve_right (by tauto))
  refine ⟨_, if_neg (by simp [realloc, hzero]), by simp [realloc, hzero]; omega, fun i hi hi' => ?_⟩
  cases hd : v.data with
  | none => simp_all
  | some cells => simp [realloc, hzero, hi]

/-- A reservation that fails on a vector without memory. -/
theorem vectorReserve_of_none (h : v.Valid) (hzero : v.allocatedCount = 0)
    (hn : max n v.count ≠ 0) : vectorReserve v n none = (v, false) := by
  obtain ⟨count, allocatedCount, data, destruct⟩ := v
  obtain ⟨hle, hdata⟩ := h
  subst hzero
  obtain rfl := Nat.le_zero.1 hle
  obtain rfl : data = none := by simpa using hdata
  rw [Nat.max_zero] at hn
  simp [vectorReserve, realloc, hn]

theorem vectorReserve_step (h : v.Valid) (hc : VectorCall.Spares v alloc (.reserve n)) :
    v.Step (vectorReserve v n alloc, []) := by
  by_cases hok : alloc.isSome ∨ max n v.count = v.allocatedCount ∨ max n v.count = 0
  · obtain ⟨data, heq, hdata, hcells⟩ := vectorReserve_of_some h.data_iff hok
    rw [heq]
    exact .of_cells ⟨le_max_right .., hdata⟩ rfl le_rfl fun i hi =>
      hcells i (hi.trans_le h.count_le) (lt_max_of_lt_right hi)
  · simp only [VectorCall.Spares, not_or, Option.not_isSome_iff_eq_none] at hc hok
    obtain ⟨rfl, hne, hn⟩ := hok
    rw [vectorReserve_of_none h (by simpa [hne, hn] using hc) hn]
    exact .refl h

theorem vectorResize_shrink (h : v.Valid) (hlt : n < v.count) :
    v.Step (vectorResize v n alloc) := by
  have hvalid : Vector.Valid { v with count := n } := ⟨hlt.le.trans h.count_le, h.data_iff⟩
  have helems : Vector.elements { v with count := n } = v.elements.take n :=
    elements_eq_take hlt.le fun _ _ => rfl
  rw [vectorResize, if_pos hlt]
  refine ⟨hvalid, rfl, nofun, fun hd => ?_⟩
  have hnil : (v.elements.take n).drop v.count = [] :=
    drop_eq_nil_of_le ((length_take_le n _).trans hlt.le)
  rw [if_pos hd, helems, take_append_drop, hnil, append_nil]

theorem vectorResize_step (h : v.Valid) (hc : VectorCall.Spares v alloc (.resize n)) :
    v.Step (vectorResize v n alloc) := by
  by_cases hlt : n < v.count
  · exact vectorResize_shrink h hlt
  obtain ⟨hle, hdata⟩ := h
  rw [vectorResize, if_neg hlt]
  split_ifs with hgt hfits
  · exact .of_cells ⟨hfits, hdata⟩ rfl hgt.le fun _ _ => rfl
  · obtain ⟨data, heq, hdata', hcells⟩ := vectorReserve_of_some (v := { v with count := n })
      (n := n) hdata (.inl (hc.resolve_right hfits))
    rw [heq]
    refine .of_cells ⟨le_max_right .., hdata'⟩ rfl hgt.le fun i hi => hcells i (hi.trans_le hle) ?_
    omega
  · exact .of_cells ⟨hle, hdata⟩ rfl le_rfl fun _ _ => rfl

theorem vectorResize_fits (hcount : v'.count = v.count) (hlt : v.count < v'.allocatedCount)
    (hdata : v'.data.isSome) (hd : v'.destruct = v.destruct)
    (hcells : ∀ i < v.count, v.data.map (· i) = v'.data.map (· i)) :
    v.Step (((vectorResize v' (v'.count + 1) alloc).1.1, true), []) := by
  rw [vectorResize, if_neg (by omega), if_pos (by omega), if_pos (by omega)]
  refine .of_cells ⟨?_, by simp [hdata]; omega⟩ hd ?_ hcells <;> dsimp only <;> omega

theorem vectorPush_step (h : v.Valid) (hc : VectorCall.Spares v alloc .push) :
    v.Step (VectorCall.run v alloc .push) := by
  unfold VectorCall.run vectorPush
  obtain heq | hlt := h.count_le.eq_or_lt
  · rw [if_pos heq, vectorGrow]
    cases alloc with
    | none =>
      rw [vectorReserve_of_none h (by simpa [VectorCall.Spares, heq] using hc) (by omega)]
      exact .refl h
    | some new =>
      obtain ⟨data, heq', hdata, hcells⟩ := vectorReserve_of_some (n := v.count * 2 + 1) h.data_iff
        (.inl (Option.isSome_some (a := new)))
      rw [heq']
      exact vectorResize_fits rfl (by dsimp only; omega) (hdata.2 (by omega)) rfl fun i hi =>
        hcells i (by omega) (by omega)
  · rw [if_neg hlt.ne]
    exact vectorResize_fits rfl hlt (h.data_iff.2 (by omega)) rfl fun _ _ => rfl

theorem run_step (h : v.Valid) (c : VectorCall) (hc : c.Spares v alloc) :
    v.Step (c.run v alloc) := by
  cases c with
  | push => exact vectorPush_step h hc
  | resize n => exact vectorResize_step h hc
  | reserve n => exact vectorReserve_step h hc

/-! ## Runs -/

/-- A call, with its result, the elements it adds and those it destructs. -/
def vectorStep (v : Vector α) (i : VectorCall × Alloc α) : Vector α × Bool × List α × List α :=
  let r := i.1.run v i.2
  (r.1.1, r.1.2, r.1.1.elements.drop v.count, r.2)

def SparesData (v : Vector α) (i : VectorCall × Alloc α) : Prop := i.1.Spares v i.2

theorem vectorDestroy_spec (hd : v.destruct) : (vectorDestroy v).2 = v.elements := by
  have hnil : v.count = 0 → v.elements = [] := fun hz =>
    eq_nil_of_length_eq_zero (Nat.le_zero.1 (hz ▸ elements_length_le))
  unfold vectorDestroy vectorResize
  split_ifs <;> simp_all

/-- **Failed growth.** In a run whose failed allocations find a vector without memory, a failed call
changes nothing, and each element is destructed once. -/
theorem vector_run_keeps (h : v.Valid) (calls : List (VectorCall × Alloc α))
    (hg : Guarded vectorStep SparesData v calls) :
    (run vectorStep v calls).1.Valid ∧
    (v.destruct → (vectorDestroy (run vectorStep v calls).1).2 ++
        (run vectorStep v calls).2.flatMap (·.2.2) ~
      v.elements ++ (run vectorStep v calls).2.flatMap (·.2.1)) ∧
    ∀ pre c alloc post, calls = pre ++ (c, alloc) :: post →
      (c.run (run vectorStep v pre).1 alloc).1.2 = false →
      c.run (run vectorStep v pre).1 alloc = (((run vectorStep v pre).1, false), []) := by
  have hvalid : ∀ is, Guarded vectorStep SparesData v is → (run vectorStep v is).1.Valid :=
    fun is => run_invariant (fun v i hv hi => (run_step hv i.1 hi).valid) h
  refine ⟨hvalid calls hg, ?_, ?_⟩
  · clear hvalid
    induction calls generalizing v with
    | nil => exact fun hd => by simp [vectorDestroy_spec hd]
    | cons i calls ih =>
      intro hd
      have hstep := run_step h i.1 hg.1
      have h1 := ih hstep.valid hg.2 (hstep.destruct ▸ hd)
      have h2 := hstep.kept hd
      simp only [run_cons, flatMap_cons, vectorStep, ← Multiset.coe_eq_coe, ← Multiset.coe_add]
        at h1 h2 ⊢
      rw [add_left_comm, h1, add_left_comm, ← add_assoc, h2, add_assoc]
  · rintro pre c alloc post rfl
    obtain ⟨hpre, hcall, -⟩ := (guarded_append v pre _).1 hg
    exact (run_step (hvalid pre hpre) c hcall).failed

/-- A push that fails on an empty vector is made again. -/
theorem vector_run_keeps_retried :
    let calls : List (VectorCall × Alloc ℕ) := [(.push, none), (.push, some fun _ => 7)]
    (vectorDestroy (run vectorStep ⟨0, 0, none, true⟩ calls).1).2 ++
      (run vectorStep ⟨0, 0, none, true⟩ calls).2.flatMap (·.2.2) ~ [7] :=
  (vector_run_keeps ⟨le_rfl, by decide⟩ [(.push, none), (.push, some fun _ => 7)]
    ⟨.inr (.inr rfl), .inl rfl, trivial⟩).2.1 rfl

/-- A push and a resize that fail: the element is freed, and the resize has changed the count. -/
theorem vector_growth_loses : ∃ v : Vector ℕ, v.Valid ∧ v.elements = [7] ∧
    vectorPush v none = ({ v with data := none }, none) ∧
    vectorResize v 2 none = (({ v with count := 2, data := none }, false), []) := by
  refine ⟨⟨1, 1, some fun _ => 7, true⟩, ⟨by decide, by decide⟩, rfl, rfl, rfl⟩

end Haka
