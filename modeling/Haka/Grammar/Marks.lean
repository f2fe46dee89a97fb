import Haka.Grammar.Equivalence

/-!
# Marks

The marks a parse holds in the buffer are those of `_retain_mark`: `mark` inserts one and pushes
it, `unmark` pops one and removes it. When a traversal ends with an error, `_traverse` removes what
is left; when it ends with success, nothing does. A token places one more mark, which it removes by
itself.
-/

namespace Haka.Grammar

variable {κ ν : Type} [DecidableEq κ]

/-- `for i=1,count do self:unmark() end` -/
def Context.unmarkTimes : ℕ → Context ν → Option (Context ν)
  | 0, c => some c
  | count + 1, c => c.unmark.bind (unmarkTimes count)

/-- The end of `_traverse`. -/
def Context.endTraverse (c : Context ν) : Option (Context ν) :=
  if c.error.isSome then c.unmarkTimes c.retainMark.length else some c

/-- The marks in the buffer when `_traverse` returns, if it does within `fuel` turns. -/
def marksLeft (g : Graph κ ν) (entity : ℕ) (all : Bool) (input : List UInt8) (fuel : ℕ) :
    Option (List (Position × Bool)) :=
  match run g fuel (some entity, Context.start input all) with
  | some (none, c) => c.endTraverse.map Context.retainMark
  | _ => none

/-! ## Tokens -/

/-- A change of the marks of the buffer by `Token:_parse`. -/
inductive MarkOp where
  | mark
  | unmark
  deriving DecidableEq

/-- What `sink:feed` answers for the next available part of the input; `last` if there is none. -/
structure Feed where
  isMatch : Bool
  isPartial : Bool
  last : Bool

/-- The marks of `Token:_parse`, by the answers for the parts of the input; `none` while it waits
for more. -/
def tokenParse : List Feed → (begun : Bool) → Option (List MarkOp)
  | [], _ => none
  | feed :: rest, begun =>
    Option.map ((if begun then [] else [.mark]) ++ ·)
      (if !feed.isMatch && !feed.isPartial then some [.unmark]
      else if feed.isMatch then some [.unmark]
      else if feed.last then some [.unmark]
      else tokenParse rest true)

theorem tokenParse_eq : ∀ {feeds : List Feed} {begun : Bool} {ops : List MarkOp},
    tokenParse feeds begun = some ops → ops = if begun then [.unmark] else [.mark, .unmark]
  | feed :: rest, begun, ops, h => by
    obtain ⟨ops', hops', rfl⟩ := Option.map_eq_some_iff.mp h
    obtain rfl : ops' = [.unmark] := by
      split_ifs at hops'
      · cases hops'
        rfl
      · cases hops'
        rfl
      · cases hops'
        rfl
      · exact tokenParse_eq hops'
    cases begun <;> rfl

/-! ## Whole traversals -/

omit [DecidableEq κ] in
theorem unmarkTimes_eq : ∀ (marks : List (Position × Bool)) (c : Context ν), c.retainMark = marks →
    c.unmarkTimes marks.length = some { c with retainMark := [] }
  | [], c, h => by
    cases c
    cases h
    rfl
  | _ :: rest, c, h => by
    have hunmark : c.unmark = some { c with retainMark := rest } := by rw [Context.unmark, h]
    rw [List.length_cons, Context.unmarkTimes, hunmark, Option.bind_some, unmarkTimes_eq rest _ rfl]

theorem run_unique {g : Graph κ ν} {p : Option ℕ × Context ν} {m n : ℕ} {c c' : Context ν}
    (h : run g m p = some (none, c)) (h' : run g n p = some (none, c')) : c = c' := by
  have hm := run_add (g := g) m n p
  have hn := run_add (g := g) n m p
  rw [h, Option.bind_some, run_none] at hm
  rw [h', Option.bind_some, run_none, Nat.add_comm, hm] at hn
  cases hn
  rfl

/-- **Marks.** A parse of a grammar without references, or one whose tries have leaf parsers as cases
but for the last, leaves no mark in the buffer, nor does a token, which removes the one mark it places
once. -/
theorem no_mark_left {entity : Entity κ ν} {named : Option String} {readonly : Bool}
    {g₀ g : Graph κ ν} {root : ℕ} (h : entity.compile readonly named [] g₀ = .ok (g, root))
    (hok : entity.nonRecursive = true ∨ entity.leafCases = true) (all : Bool)
    (input : List UInt8) :
    (∀ fuel marks, marksLeft g root all input fuel = some marks → marks = []) ∧
      ∀ feeds ops, tokenParse feeds false = some ops → ops = [.mark, .unmark] := by
  refine ⟨fun fuel marks hm => ?_, fun _ _ => tokenParse_eq⟩
  obtain ⟨strict, hn⟩ : ∃ strict, entity.all (Entity.fits strict) = true :=
    hok.elim (fun hn => ⟨false, hn⟩) fun hn => ⟨true, hn⟩
  have hmeets := compiled_meets h hn all input
  unfold marksLeft at hm
  split at hm
  · next c hrun =>
    obtain ⟨c', hend, rfl⟩ := Option.map_eq_some_iff.mp hm
    unfold Context.endTraverse at hend
    cases herror : c.error with
    | some msg =>
      rw [herror, Option.isSome_some, if_pos rfl, unmarkTimes_eq _ _ rfl] at hend
      cases hend
      rfl
    | none =>
      rw [herror] at hend
      cases hend
      -- the traversal ends where the reading does, with the marks it started with
      have hout : outcome (run g fuel (some root, .start input all)) = some (.done c.toState) := by
        simp [outcome, hrun, herror]
      obtain ⟨f, hf⟩ := (outcome_iff rfl rfl hmeets _).mp ⟨fuel, hout⟩
      have hdone := hmeets f
      rw [hf] at hdone
      obtain ⟨n, level, hn, -⟩ := hdone
      rw [run_unique hrun (steps_run (n := 0) hn)]
      rfl
  · cases hm

theorem orB_recordA_marks :
    marksLeft (compiled (orB recordA)).1 (compiled (orB recordA)).2 true [98] 30 = some [] ∧
      ∀ fuel marks, marksLeft (compiled (orB recordA)).1 (compiled (orB recordA)).2 true [98] fuel =
        some marks → marks = [] :=
  ⟨by decide +kernel, (no_mark_left orB_recordA_compile (.inl rfl) true [98]).1⟩

/-- A record in a record that failed leaves the level two too high: the recursion in `bbbee` does not
end with the optional, the traversal goes on to the end of the outer record, and of the marks of the
three records one stays. -/
theorem nested_record_marks :
    (nested (.record (.cons none recordA .nil))).compile false none [] {} =
        .ok (compiled (nested (.record (.cons none recordA .nil)))) ∧
      marksLeft (compiled (nested (.record (.cons none recordA .nil)))).1
        (compiled (nested (.record (.cons none recordA .nil)))).2 true [98, 98, 98, 101, 101] 90 =
          some [(⟨0, 0⟩, false)] :=
  ⟨compile_eq _ (by decide +kernel), by decide +kernel⟩

end Haka.Grammar
