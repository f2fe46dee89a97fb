import Haka.Grammar.Equivalence

/-!
# Array conditions

`count`, `untilcond` and `whilecond` of `grammar.lua` derive an array from another one by a clone.
Arrays are Lua tables, here numbered in the order they are made. `count` and `untilcond` set the
condition of the clone; `whilecond` sets that of the array it is called on, and returns the clone.
-/

namespace Haka.Grammar

open List

variable {κ ν : Type}

/-- An array of a grammar: its elements with their name, and its condition once it has one. -/
structure ArrayObject (κ ν : Type) where
  entity : Entity κ ν
  inner : Option String := none
  more : Option (More ν) := none

abbrev Arrays (κ ν : Type) := List (ArrayObject κ ν)

/-- The condition that `whilecond` sets: there is another element while `condition` holds. -/
def More.whilecond (condition : Option ℕ → Scope ν → Bool) : More ν :=
  .untilcond fun last s => !condition last s

def Arrays.count (arrays : Arrays κ ν) (self : Fin arrays.length) (size : Scope ν → ℤ) :
    Arrays κ ν × ℕ :=
  let clone := arrays.get self
  (arrays ++ [{ clone with more := some (.count size) }], arrays.length)

def Arrays.untilcond (arrays : Arrays κ ν) (self : Fin arrays.length)
    (condition : Option ℕ → Scope ν → Bool) : Arrays κ ν × ℕ :=
  let clone := arrays.get self
  (arrays ++ [{ clone with more := some (.untilcond condition) }], arrays.length)

def Arrays.whilecond (arrays : Arrays κ ν) (self : Fin arrays.length)
    (condition : Option ℕ → Scope ν → Bool) : Arrays κ ν × ℕ :=
  let clone := arrays.get self
  (arrays.set self { arrays.get self with more := some (.whilecond condition) } ++ [clone],
    arrays.length)

/-! ## Reading -/

section Read

variable [DecidableEq κ]

/-- The loop of an array, for at most `n` turns; its own result is the innermost of `results`.
Without a condition the loop calls `nil`, a Lua error. -/
def ArrayObject.loop (array : ArrayObject κ ν) (fuel : ℕ) (again : Reader κ ν)
    (env : List (Enclosing κ ν)) (results : List ℕ) (n : ℕ) (s : State ν) : Option (Reading ν) :=
  match array.more with
  | some more =>
    readArray more (fun results s => array.entity.readWith fuel again array.inner env results s)
      results n s
  | none => if n = 0 then none else some .crashed

/-- An array without a name reads its elements by the loop, in a new result. -/
theorem readWith_array {array : ArrayObject κ ν} {more : More ν} (h : array.more = some more)
    (fuel : ℕ) (again : Reader κ ν) (env : List (Enclosing κ ν)) (results : List ℕ) (s : State ν) :
    (Entity.array array.inner array.entity more).readWith fuel again none env results s =
      array.loop fuel again ((.array array.inner array.entity more, none) :: env)
        (s.newResult.2 :: results) fuel s.newResult.1 := by
  simp only [Entity.readWith, ArrayObject.loop, h]

/-- Two arrays read the same elements and stop at the same positions, wherever they are read. -/
def SameLoops (a b : ArrayObject κ ν) : Prop :=
  ∀ fuel again env results n s,
    a.loop fuel again env results n s = b.loop fuel again env results n s

/-- The conditions `whilecond(p)` and `untilcond(not p)` on one array read the same, and setting
either changes the reading of no array that exists. -/
structure Duality (arrays : Arrays κ ν) (i : Fin arrays.length)
    (p : Option ℕ → Scope ν → Bool) : Prop where
  dual : ∃ a b, (arrays.whilecond i p).1[(arrays.whilecond i p).2]? = some a ∧
    (arrays.untilcond i fun last s => !p last s).1[
      (arrays.untilcond i fun last s => !p last s).2]? = some b ∧ SameLoops a b
  whilecond : Forall₂ SameLoops arrays ((arrays.whilecond i p).1.take arrays.length)
  untilcond : Forall₂ SameLoops arrays
    ((arrays.untilcond i fun last s => !p last s).1.take arrays.length)

theorem readArray_congr {more more' : More ν} (h : ∀ s, more.test s = more'.test s)
    (element : List ℕ → State ν → Option (Reading ν)) (results : List ℕ) (n : ℕ) :
    readArray more element results n = readArray more' element results n := by
  induction n with
  | zero => rfl
  | succ n ih =>
    funext s
    simp only [readArray, h, ih]

theorem sameLoops_of_test {a : ArrayObject κ ν} {more more' : More ν} (ha : a.more = some more)
    (h : ∀ s, more.test s = more'.test s) : SameLoops a { a with more := some more' } := by
  intro fuel again env results n s
  simp only [ArrayObject.loop, ha]
  rw [readArray_congr h]

theorem forall₂_sameLoops_refl (arrays : Arrays κ ν) : Forall₂ SameLoops arrays arrays :=
  forall₂_same.mpr fun _ _ _ _ _ _ _ _ => rfl

def missing : Entity κ ν := .primitive ⟨0, fun _ s => (s.store, s.iter, some "missing")⟩

theorem loop_missing (more : More ν) (again : Reader κ ν) (results : List ℕ) (s : State ν) :
    (∃ s', (⟨missing, none, some more⟩ : ArrayObject κ ν).loop 0 again [] results 1 s =
        if more.test (s.scope results) then some (.failed s' "missing") else some (.done s)) :=
  ⟨_, rfl⟩

theorem test_of_sameLoops {more more' : More ν}
    (h : SameLoops (⟨missing, none, some more⟩ : ArrayObject κ ν) ⟨missing, none, some more'⟩)
    (sc : Scope ν) : more.test sc = more'.test sc := by
  obtain ⟨input, iter, results, store⟩ := sc
  have hone := h 0 (fun _ _ _ _ _ => none) [] results 1 ⟨input, iter, store, none, []⟩
  obtain ⟨s1, h1⟩ := loop_missing more (fun _ _ _ _ _ => none : Reader κ ν) results
    ⟨input, iter, store, none, []⟩
  obtain ⟨s2, h2⟩ := loop_missing more' (fun _ _ _ _ _ => none : Reader κ ν) results
    ⟨input, iter, store, none, []⟩
  rw [h1, h2] at hone
  simp only [State.scope] at hone
  cases hm : more.test ⟨input, iter, results, store⟩ <;>
    cases hm' : more'.test ⟨input, iter, results, store⟩ <;> simp [hm, hm'] at hone ⊢

/-- **Duality of the conditions.** `whilecond` and `untilcond` are dual and change no other array
exactly if the array already has the condition that `whilecond` would give it. -/
theorem duality_iff (more : Option (More ν)) (p : Option ℕ → Scope ν → Bool) :
    (∀ (arrays : Arrays κ ν) (self : Fin arrays.length), (arrays.get self).more = more →
        Duality arrays self p) ↔
      ∃ m, more = some m ∧ ∀ s, m.test s = (More.whilecond p).test s := by
  constructor
  · intro h
    obtain ⟨a, b, ha, hb, hab⟩ := (h [⟨missing, none, more⟩] ⟨0, Nat.one_pos⟩ rfl).dual
    obtain rfl : (⟨missing, none, more⟩ : ArrayObject κ ν) = a := by
      simpa [Arrays.whilecond] using ha
    obtain rfl : (⟨missing, none, some (.whilecond p)⟩ : ArrayObject κ ν) = b := by
      simpa [Arrays.untilcond, More.whilecond] using hb
    cases more with
    | some m => exact ⟨m, rfl, test_of_sameLoops hab⟩
    | none =>
      -- the clone that `whilecond` returns has no condition
      obtain ⟨s', hs'⟩ := loop_missing (.whilecond p) (fun _ _ _ _ _ => none : Reader κ ν) []
        ⟨[], ⟨0, 0⟩, {}, none, []⟩
      have hone := hab 0 (fun _ _ _ _ _ => none) [] [] 1 ⟨[], ⟨0, 0⟩, {}, none, []⟩
      rw [hs'] at hone
      split at hone <;> cases hone
  · rintro ⟨m, rfl, hm⟩ arrays self hself
    have hsame := sameLoops_of_test hself hm
    refine ⟨⟨arrays.get self, _, by simp [Arrays.whilecond], by simp [Arrays.untilcond]; rfl,
      hsame⟩, ?_, by simpa [Arrays.untilcond] using forall₂_sameLoops_refl arrays⟩
    simp only [Arrays.whilecond]
    rw [take_left' (length_set ..), forall₂_iff_get]
    refine ⟨(length_set ..).symm, fun j hj hj' => ?_⟩
    simp only [get_eq_getElem, getElem_set]
    split
    · next hij =>
      subst hij
      exact hsame
    · exact fun _ _ _ _ _ _ => rfl

end Read

/-- **Dual conditions compile alike.** If the array has the condition of `p` already, `whilecond(p)`
and `untilcond(not p)` make arrays that compile to the same graph. -/
theorem dual_compile {arrays : Arrays κ ν} {self : Fin arrays.length} {m : More ν}
    {p : Option ℕ → Scope ν → Bool} (hself : (arrays.get self).more = some m)
    (hm : ∀ s, m.test s = (More.whilecond p).test s) :
    ∃ a b ma mb, (arrays.whilecond self p).1[(arrays.whilecond self p).2]? = some a ∧
      (arrays.untilcond self fun last s => !p last s).1[
        (arrays.untilcond self fun last s => !p last s).2]? = some b ∧
      a.more = some ma ∧ b.more = some mb ∧ ∀ readonly named env g,
        (Entity.array a.inner a.entity ma).compile readonly named env g =
          (Entity.array b.inner b.entity mb).compile readonly named env g := by
  have hselector : (m.selector : Scope ν → Option (Key κ)) = (More.whilecond p).selector :=
    funext fun s => by rw [More.selector, More.selector, hm]
  refine ⟨arrays.get self, { arrays.get self with more := some (.whilecond p) }, m, .whilecond p,
    by simp [Arrays.whilecond], by simp [Arrays.untilcond, More.whilecond], hself, rfl, ?_⟩
  intro readonly named env g
  simp only [Entity.compile, Entity.doCompile, Entity.isCompound, hselector]

/-- The next byte is `a`. -/
def nextA (_ : Option ℕ) (s : Scope Unit) : Bool := s.input[s.iter.meter]? = some 97

/-- An array of bytes `a` that has the condition already, beside one of a single byte. -/
theorem duality_whilecond :
    Duality [(⟨.primitive (byteLeaf 97), none, some (.whilecond nextA)⟩ : ArrayObject Unit Unit),
      ⟨.primitive (byteLeaf 97), none, some (.count fun _ => 1)⟩] ⟨0, Nat.two_pos⟩ nextA :=
  (duality_iff _ _).mpr ⟨_, rfl, fun _ => rfl⟩ _ _ rfl

/-- Bytes `a`: an array without a condition, and a single byte. -/
def arraysA : Arrays Unit Unit :=
  (Arrays.count [⟨.primitive (byteLeaf 97), none, none⟩] ⟨0, Nat.one_pos⟩ fun _ => 1).1

def arrayA (more : More Unit) : Entity Unit Unit := .array none (.primitive (byteLeaf 97)) more

def Reading.meter : Option (Reading ν) → Option ℕ
  | some (.done s) => some s.iter.meter
  | _ => none

theorem traverse_arrayA {more : More Unit} {n : ℕ}
    (h : Reading.meter ((arrayA more).parse 9 none [97, 97, 98]) = some n) :
    ∃ fuel, Reading.meter (traverse (compiled (arrayA more)).1 (compiled (arrayA more)).2 true
      [97, 97, 98] fuel) = some n := by
  unfold Reading.meter at h
  split at h
  · next s hs =>
    have hcompile : (arrayA more).compile false none [] {} =
        .ok ((compiled (arrayA more)).1, (compiled (arrayA more)).2) := rfl
    have hfits : (arrayA more).all (Entity.fits false) := rfl
    obtain ⟨fuel, hf⟩ := (compiled_reads hcompile hfits true _ _).mpr ⟨9, hs⟩
    exact ⟨fuel, by rw [hf]; exact h⟩
  · cases h

/-- On `aab`, `untilcond(not a)` reads two bytes. `whilecond(a)` returns an array without a
condition, whose loop is a Lua error, and changes the array it is called on. -/
theorem whilecond_not_dual :
    let reads more n := ∃ fuel, Reading.meter (traverse (compiled (arrayA more)).1
      (compiled (arrayA more)).2 true [97, 97, 98] fuel) = some n
    let made := arraysA.whilecond ⟨0, by decide⟩ nextA
    reads (.untilcond fun last s => !nextA last s) 2 ∧
    (∃ a, made.1[made.2]? = some a ∧ ∀ fuel again env results n s,
      a.loop fuel again env results (n + 1) s = some .crashed) ∧
    reads (.count fun _ => 1) 1 ∧
    (arraysA.whilecond ⟨1, by decide⟩ nextA).1[1]?.map ArrayObject.more =
      some (some (.whilecond nextA)) ∧ reads (.whilecond nextA) 2 :=
  ⟨traverse_arrayA rfl, ⟨_, rfl, fun _ _ _ _ _ _ => rfl⟩, traverse_arrayA rfl, rfl,
    traverse_arrayA rfl⟩

end Haka.Grammar
