import Haka.Grammar.Compile
import Haka.Grammar.Simulation

/-!
# Compiled grammars mean what they read

The simulation at the root of a grammar. A traversal of the compiled graph and the reading of the
grammar end alike, for all grammars without references (`traverse_iff_parse`). With references
this holds if the cases of a try but the last are leaf parsers (`backtracking_restores`): `catch`
does not give back the nesting level, so after a record that failed a recursion ends at the wrong
place.
-/

namespace Haka.Grammar

variable {κ ν : Type} [DecidableEq κ]

/-! ## Runs -/

section Runs

variable {g : Graph κ ν} {strict : Bool} {m n : ℕ} {s t : Traced ν}

def outcome : Option (Option ℕ × Context ν) → Option (Reading ν)
  | none => some .crashed
  | some (some _, _) => none
  | some (none, c) =>
    match c.error with
    | none => some (.done c.toState)
    | some msg => some (.failed c.toState msg)

theorem traverse_eq_outcome (root : ℕ) (all : Bool) (input : List UInt8) (fuel : ℕ) :
    traverse g root all input fuel = outcome (run g fuel (some root, .start input all)) := by
  unfold traverse
  rcases run g fuel (some root, .start input all) with _ | ⟨_ | _, c⟩
  · rfl
  · unfold outcome
    cases c.error <;> rfl
  · rfl

theorem run_none (c : Context ν) : ∀ n, run g n (none, c) = some (none, c)
  | 0 => rfl
  | _ + 1 => rfl

theorem run_add : ∀ (m n : ℕ) (p : Option ℕ × Context ν),
    run g (m + n) p = (run g m p).bind (run g n)
  | 0, n, p => by rw [Nat.zero_add]; rfl
  | m + 1, n, (none, c) => by rw [run_none, run_none, Option.bind_some, run_none]
  | m + 1, n, (some i, c) => by
    rw [Nat.succ_add, run, run, Option.bind_assoc]
    congr 1
    funext p
    exact run_add m n p

theorem outcome_mono {p : Option ℕ × Context ν} {o : Reading ν} (hmn : m ≤ n)
    (h : outcome (run g m p) = some o) : outcome (run g n p) = some o := by
  obtain ⟨d, rfl⟩ := Nat.exists_eq_add_of_le hmn
  rw [run_add]
  rcases hr : run g m p with _ | ⟨_ | i, c⟩
  · rw [hr] at h
    exact h
  · rw [hr] at h
    rw [Option.bind_some, run_none]
    exact h
  · rw [hr] at h
    cases h

def Traced.next (g : Graph κ ν) (s : Traced ν) : Option (Traced ν) := do
  let i ← s.pc
  let (pc, ctx) ← step g i s.ctx
  return ⟨pc, ctx, startedAfter g i s.ctx s.started⟩

theorem Turn.next (h : Turn g strict s t) : s.next g = some t := by
  obtain ⟨i, hi, hstep, hst⟩ := h.step
  simp [Traced.next, hi, hstep, ← hst]

theorem next_run {i : ℕ} {c : Context ν} {started : List (Context ν)}
    (h : Traced.next g ⟨some i, c, started⟩ = some t) :
    step g i c = some (t.pc, t.ctx) := by
  simp only [Traced.next, bind, Option.bind_some, Option.bind_eq_some_iff] at h
  obtain ⟨⟨pc, ctx⟩, hstep, ht⟩ := h
  cases ht
  exact hstep

theorem steps_run (h : Steps (Turn g strict) m s t) :
    run g (m + n) (s.pc, s.ctx) = run g n (t.pc, t.ctx) := by
  induction h with
  | refl => rw [Nat.zero_add]
  | head hst _ ih =>
    obtain ⟨i, hi, hstep, -⟩ := hst.step
    rw [hi, Nat.succ_add, run, hstep, Option.bind_some]
    exact ih

theorem steps_not_ended (h : Steps (Turn g strict) m s t) (hnm : n < m) :
    outcome (run g n (s.pc, s.ctx)) = none := by
  induction h generalizing n with
  | refl => omega
  | head hst _ ih =>
    obtain ⟨i, hi, hstep, -⟩ := hst.step
    cases n with
    | zero => rw [hi]; rfl
    | succ n =>
      rw [hi, run, hstep, Option.bind_some]
      exact ih (by omega)

theorem steps_next (h : Steps (Turn g strict) m s t) :
    Steps (fun s t => s.next g = some t) m s t := by
  induction h with
  | refl => exact .refl _
  | head hst _ ih => exact .head hst.next ih

theorem not_next_of_stopped {e t' : Traced ν} (he : e.next g = none)
    (h : Steps (fun s t => s.next g = some t) n e t) : t.next g ≠ some t' := by
  rcases h.cases_head with rfl | ⟨_, _, h, _⟩
  · simp [he]
  · rw [he] at h
    cases h

theorem steps_follow {u u' : Traced ν} (h : Steps (Turn g strict) m s t) (hmn : n < m)
    (hu : Steps (fun s t => s.next g = some t) n s u) (hu' : u.next g = some u') :
    Turn g strict u u' := by
  induction hu generalizing m with
  | refl =>
    cases h with
    | refl => omega
    | head hst _ =>
      obtain rfl := Option.some.inj (hst.next.symm.trans hu')
      exact hst
  | head hv _ ih =>
    cases h with
    | refl => omega
    | head hst h =>
      obtain rfl := Option.some.inj (hst.next.symm.trans hv)
      exact ih h (by omega) hu'

end Runs

/-! ## The end of a traversal -/

section Ends

variable {g : Graph κ ν} {strict : Bool} {fuel : ℕ} {c : Context ν} {s : Traced ν}
  {r : Option (Reading ν)}

omit [DecidableEq κ] in
theorem catchError_nil (h : c.catches = []) : c.catchError = some (none, c) := by
  simp [Context.catchError, h]

theorem step_raised {i : ℕ} {ci ce : Context ν} (hr : raised g i ci = some ce)
    (hcatches : ce.catches = []) : step g i ci = some (none, ce) := by
  obtain ⟨nd, hi, ha, msg, he⟩ := raised_spec hr
  simp only [step, hi, ha, he, catchError_nil hcatches, bind, Option.bind_some, pure]

theorem Meets.outcome (hcatches : c.catches = []) (herror : c.error = none)
    (h : Meets g strict fuel c [] none s r) :
    (r = none ∧ ∃ n t, fuel ≤ n ∧ Steps (Turn g strict) n s t) ∨
      ∃ o, r = some o ∧ ∃ n, outcome (run g n (s.pc, s.ctx)) = some o := by
  rcases r with _ | s' | ⟨s', msg⟩ | _
  · exact .inl ⟨rfl, h⟩
  · obtain ⟨n, level, hn, -⟩ := h
    refine .inr ⟨_, rfl, n + 0, ?_⟩
    rw [steps_run hn]
    simp [Grammar.outcome, run, herror]
  · obtain ⟨n, i, ci, ce, hn, hr, rfl, he, hin, -⟩ := h
    refine .inr ⟨_, rfl, n + 1, ?_⟩
    rw [steps_run hn, run, step_raised hr (hin.catches.trans hcatches), Option.bind_some, run]
    simp [Grammar.outcome, he]
  · obtain ⟨n, t, hn, i, hi, ht⟩ := h
    refine .inr ⟨_, rfl, n + 1, ?_⟩
    rw [steps_run hn, hi, run, ht]
    rfl

/-- Every turn before the fuel runs out is a turn of the simulation, but for one that ends the
traversal with an error. -/
theorem Meets.turn {n : ℕ} {t t' : Traced ν} (hcatches : c.catches = [])
    (h : Meets g strict fuel c [] none s r) (hn : n < fuel)
    (ht : Steps (fun s t => s.next g = some t) n s t) (ht' : t.next g = some t') :
    Turn g strict t t' ∨ ∃ i ce, t.pc = some i ∧ raised g i t.ctx = some ce ∧ ce.catches = [] := by
  have hdet : ∀ s t u : Traced ν, s.next g = some t → s.next g = some u → t = u :=
    fun _ _ _ h h' => Option.some.inj (h.symm.trans h')
  -- a run that has stopped before is not in the way
  have hstop : ∀ {m e}, Steps (Turn g strict) m s e → e.next g = none → n < m := by
    intro m e hm he
    by_contra hmn
    exact not_next_of_stopped he ((steps_next hm).follow hdet ht (by omega)) ht'
  rcases r with _ | s' | ⟨s', msg⟩ | _
  · obtain ⟨m, u, hmn, hm⟩ := h
    exact .inl (steps_follow hm (by omega) ht ht')
  · obtain ⟨m, level, hm, -⟩ := h
    exact .inl (steps_follow hm (hstop hm rfl) ht ht')
  · obtain ⟨m, i, ci, ce, hm, hr, rfl, he, hin, -⟩ := h
    have hce : ce.catches = [] := hin.catches.trans hcatches
    by_cases hmn : n < m
    · exact .inl (steps_follow hm hmn ht ht')
    · right
      rcases ((steps_next hm).follow hdet ht (by omega)).cases_head with rfl | ⟨e, _, h, hrest⟩
      · exact ⟨i, ce, rfl, hr, hce⟩
      · -- the error has ended the traversal
        have hpc : e.pc = none := by
          have hstep := Option.some.inj ((next_run h).symm.trans (step_raised hr hce))
          exact congrArg Prod.fst hstep
        exact absurd ht' (not_next_of_stopped (by simp [Traced.next, hpc]) hrest)
  · obtain ⟨m, e, hm, i, hi, he⟩ := h
    exact .inl (steps_follow hm (hstop hm (by simp [Traced.next, hi, he])) ht ht')

theorem outcome_iff {parse : ℕ → Option (Reading ν)} (hcatches : c.catches = [])
    (herror : c.error = none)
    (h : ∀ fuel, Meets g strict fuel c [] none s (parse fuel)) (o : Reading ν) :
    (∃ fuel, outcome (run g fuel (s.pc, s.ctx)) = some o) ↔ ∃ fuel, parse fuel = some o := by
  constructor
  · rintro ⟨n, hn⟩
    rcases (h (n + 1)).outcome hcatches herror with ⟨-, m, t, hm, hst⟩ | ⟨o', hp, m, hm⟩
    · -- the traversal makes more than `n` turns, so it has not ended after `n`
      rw [steps_not_ended hst (by omega)] at hn
      cases hn
    · have hn' := outcome_mono (Nat.le_max_left n m) hn
      have hm' := outcome_mono (Nat.le_max_right n m) hm
      exact ⟨n + 1, hp.trans (hm'.symm.trans hn')⟩
  · rintro ⟨fuel, ho⟩
    rcases (h fuel).outcome hcatches herror with ⟨hp, -⟩ | ⟨o', hp, n, hn⟩
    · rw [ho] at hp
      cases hp
    · exact ⟨n, hn.trans (hp.symm.trans ho)⟩

end Ends

/-! ## The root -/

section Root

variable {g : Graph κ ν} {strict readonly : Bool} {fuel : ℕ} {entity : Entity κ ν}
  {named : Option String} {root : ℕ}

theorem leave_last {c : Context ν} (h : c.level = 0) : Context.leave [] none c = (none, c) := by
  cases c
  simp_all [Context.leave]

theorem start_ready (input : List UInt8) :
    Ready Context.maxRecursion (Context.start (ν := ν) input true) :=
  ⟨rfl, rfl, List.cons_ne_nil _ _, rfl, Int.zero_lt_one⟩

/-- `create` starts at the exit level: the compound at the root ends the traversal. -/
theorem root_wrapped {ret x : ℕ} {input : List UInt8} {f : List ℕ → State ν → Option (Reading ν)}
    (hroot : Points g.node root .compoundStart (some ret))
    (hf : Sim g strict fuel Context.maxRecursion ret (some x) f)
    (hx : Points g.node x .compoundFinish none) :
    Meets g strict fuel (.start input false) [] none ⟨some root, .start input false, []⟩
      (f (Context.start (ν := ν) input false).results
        (Context.start (ν := ν) input false).toState) := by
  obtain ⟨c, hstart⟩ : ∃ c : Context ν, c = .start input false := ⟨_, rfl⟩
  rw [← hstart]
  have hexit : c.levelExit = 0 := by rw [hstart]; rfl
  have hc : Ready Context.maxRecursion { c with level := c.level + 1 } := by
    rw [hstart]
    exact ⟨rfl, rfl, List.cons_ne_nil _ _, rfl, Int.zero_lt_one⟩
  have hin : Inside strict c { c with level := c.level + 1 } :=
    ⟨rfl, List.suffix_rfl, List.suffix_rfl, List.suffix_rfl, rfl, fun _ => ⟨by simp, rfl, rfl⟩⟩
  refine Meets.head (hroot.turn rfl hc.startRec rfl hc.error hc.level.ne) ?_
  rw [← Reading.andThen_done (f c.results c.toState)]
  refine (hf { c with level := c.level + 1 } [] hc).andThen hin fun s level hl => ?_
  have hl' : LevelKept strict c.level (level - 1) := by
    cases strict <;> simp [LevelKept] at * <;> omega
  have hleave : Context.leave c.recurs none { c with toState := s, level := level - 1 } =
      (none, { c with toState := s, level := level - 1 }) := by
    by_cases h : level - 1 = 0
    · rw [show c.recurs = [] by rw [hstart]; rfl]
      exact leave_last h
    · exact leave_stay (.inr (by rw [hexit]; exact Ne.symm h)) _
  have ha : ({ kind := .compoundFinish } : Node κ ν).apply
      { ({ c with toState := s, level } : Context ν) with startRec := false } =
        some { c with toState := s, level := level - 1 } := by
    simp [Node.apply, Context.poplevel, show c.startRec = false from hc.startRec]
  exact Meets.head (hx.turn_of_apply rfl ha hc.error hleave) (.done hl')

/-- **The simulation at the root**, for `parse` and for `create`. -/
theorem root_meets (hcode : entity.Code readonly g.node named [] root none)
    (hn : entity.all (Entity.fits strict)) (all : Bool) (input : List UInt8) :
    Meets g strict fuel (.start input all) [] none ⟨some root, .start input all, []⟩
      (entity.parse fuel named input) := by
  unfold Entity.Code Wrapped at hcode
  split_ifs at hcode with hc
  · obtain ⟨ret, x, hroot, hret, hx⟩ := id hcode
    have henv : EnvOk g strict readonly [root] (entity.inner named []) := by
      rw [Entity.inner, if_pos hc]
      refine ⟨⟨hc, hn, none, ?_⟩, trivial⟩
      unfold Entity.Code Wrapped
      rw [if_pos hc]
      exact hcode
    have hsim : Sim g strict fuel Context.maxRecursion ret (some x) _ :=
      entity.read_sim Context.maxRecursion named [] [root] ret x hn henv hret
    cases all with
    | true => exact wrapped_sim hroot hsim hx _ [] (start_ready input)
    | false => exact root_wrapped hroot hsim hx
  · cases entity with
    | primitive p =>
      refine leaf_meets hcode rfl rfl (List.cons_ne_nil _ _) (fun h => absurd rfl h) fun s => ?_
      cases all with
      | true => exact leave_stay (.inr Int.zero_ne_one) _
      | false => exact leave_last rfl
    | recurs up =>
      obtain ⟨target, ht, -⟩ := hcode
      cases ht
    | _ => exact absurd rfl hc

/-! ## Grammars without references -/

variable {g₀ : Graph κ ν}

section

variable (h : entity.compile readonly named [] g₀ = .ok (g, root))

include h

theorem compiled_meets
    (hn : entity.all (Entity.fits strict)) (all : Bool) (input : List UInt8) (fuel : ℕ) :
    Meets g strict fuel (.start input all) [] none ⟨some root, .start input all, []⟩
      (entity.parse fuel named input) :=
  root_meets (compile_emits h).2 hn all input

/-- The traversal of the compiled graph and the reading have the same outcome; one ends only if the
other does. -/
theorem compiled_reads
    (hn : entity.all (Entity.fits strict)) (all : Bool) (input : List UInt8) (o : Reading ν) :
    (∃ fuel, traverse g root all input fuel = some o) ↔
      ∃ fuel, entity.parse fuel named input = some o := by
  simp only [traverse_eq_outcome]
  exact outcome_iff rfl rfl (compiled_meets h hn all input) o

end

/-- **Compilation preserves meaning.** Without references, the traversal of the compiled graph and
the reading of the grammar apply the same leaf parsers in the same order at the same positions, and
have the same outcome; one ends only if the other does. -/
theorem traverse_iff_parse (h : entity.compile readonly named [] g₀ = .ok (g, root))
    (hn : entity.nonRecursive) (all : Bool) (input : List UInt8) (o : Reading ν) :
    (∃ fuel, traverse g root all input fuel = some o) ↔
      ∃ fuel, entity.parse fuel named input = some o :=
  compiled_reads h (show entity.all (Entity.fits false) from hn) all input o

end Root

/-- A leaf parser of the byte `b`. -/
def byteLeaf (b : UInt8) : Primitive Unit where
  id := b.toNat
  parse _ s :=
    if s.input[s.iter.meter]? = some b then (s.store, ⟨s.iter.meter + 1, 0⟩, none)
    else (s.store, s.iter, some "unexpected byte")

/-- The case `first`, or the byte `b`. -/
def orB (first : Entity Unit Unit) : Entity Unit Unit :=
  .try (.cons none first (.cons none (.primitive (byteLeaf 98)) .nil))

/-- The byte `a`, in a record. -/
def recordA : Entity Unit Unit := .record (.cons none (.primitive (byteLeaf 97)) .nil)

def compiled (entity : Entity Unit Unit) : Graph Unit Unit × ℕ :=
  (entity.compile false none [] {}).toOption.getD ({}, 0)

theorem compile_eq (entity : Entity Unit Unit)
    (h : (entity.compile false none [] {}).isOk = true) :
    entity.compile false none [] {} = .ok (compiled entity) := by
  unfold compiled
  cases hc : entity.compile false none [] {} with
  | error e =>
    rw [hc] at h
    cases h
  | ok r => rfl

theorem orB_recordA_compile :
    (orB recordA).compile false none [] {} = .ok (compiled (orB recordA)) :=
  compile_eq _ (by decide +kernel)

def Reading.succeeds : Option (Reading ν) → Bool
  | some (.done _) => true
  | _ => false

theorem Reading.succeeds_iff {r : Option (Reading ν)} :
    Reading.succeeds r = true ↔ ∃ s, r = some (.done s) := by
  rcases r with _ | _ | ⟨_, _⟩ | _ <;> simp [Reading.succeeds]

theorem orB_recordA_traverse :
    (orB recordA).compile false none [] {} = .ok (compiled (orB recordA)) ∧
      (orB recordA).nonRecursive ∧
      ∃ s fuel, traverse (compiled (orB recordA)).1 (compiled (orB recordA)).2 true [98] fuel =
        some (.done s) := by
  obtain ⟨s, hs⟩ := Reading.succeeds_iff.mp
    (show Reading.succeeds ((orB recordA).parse 0 none [98]) = true by decide +kernel)
  exact ⟨orB_recordA_compile, rfl, s,
    (traverse_iff_parse orB_recordA_compile rfl true [98] _).mpr ⟨0, hs⟩⟩

/-! ## Backtracking -/

section Backtracking

variable {g : Graph κ ν} {readonly : Bool} {entity : Entity κ ν} {named : Option String} {root : ℕ}

/-- The next turn catches the error `c`. -/
def Catches (g : Graph κ ν) (s : Traced ν) (c : Context ν) : Prop :=
  ∃ i, s.pc = some i ∧ raised g i s.ctx = some c ∧ c.catches ≠ []

/-- The state of the parse is that of `start`. -/
structure Resumes (c start : Context ν) : Prop where
  meter : c.iter.meter = start.iter.meter
  bitoffset : c.iter.bitoffset = start.iter.bitoffset
  results : c.results = start.results
  marks : c.marks = start.marks
  retainMark : c.retainMark = start.retainMark
  recurs : c.recurs = start.recurs
  level : c.level = start.level
  levelExit : c.levelExit = start.levelExit

/-- **Backtracking.** If the cases of the tries but the last ones are leaf parsers, the case after a
failed one starts in the state of the failed one, and the outcome of the traversal is that of the
reading, for recursive grammars as well. -/
theorem backtracking_restores {g₀ : Graph κ ν}
    (h : entity.compile readonly named [] g₀ = .ok (g, root)) (hleaf : entity.leafCases)
    (all : Bool) (input : List UInt8) :
    (∀ n t t' c, Steps (fun s t => s.next g = some t) n ⟨some root, .start input all, []⟩ t →
      t.next g = some t' → Catches g t c →
      NoCaseLeft g t' ∨ ∃ start, t.started.head? = some start ∧ Resumes t'.ctx start) ∧
    ∀ o, (∃ fuel, traverse g root all input fuel = some o) ↔
      ∃ fuel, entity.parse fuel named input = some o := by
  have hfits : entity.all (Entity.fits true) := hleaf
  refine ⟨fun n t t' c hn ht ⟨i, hi, hr, hc⟩ => ?_, compiled_reads h hfits all input⟩
  rcases (compiled_meets h hfits all input (n + 1)).turn rfl (Nat.lt_succ_self n) hn ht with
    hturn | ⟨j, ce, hj, hrj, hce⟩
  · obtain ⟨start, rest, hst, hback, hclean⟩ := hturn.restored i c hi hr hc
    refine (hclean rfl).imp_right fun hclean => ⟨start, by rw [hst]; rfl, ?_⟩
    exact ⟨by rw [hback.iter], by rw [hback.iter], hback.results, hback.marks, hback.retainMark,
      hclean.2.2, hclean.1, hclean.2.1⟩
  · -- an error outside of all tries is not caught
    obtain rfl := Option.some.inj (hi.symm.trans hj)
    obtain rfl := Option.some.inj (hr.symm.trans hrj)
    exact absurd hce hc

end Backtracking

/-- The record of `first` or `b`, of `again`, and of an `e`. -/
def recordE (first again : Entity Unit Unit) : Entity Unit Unit :=
  .record (.cons none (orB first) (.cons none again (.cons none (.primitive (byteLeaf 101)) .nil)))

/-- The rule `E = record{ try{ first, b }, optional(E), e }`, where `E` is there if a `b` follows. The
`E` in the optional is compiled as a copy of the record, in which the optional is met again. -/
def nested (first : Entity Unit Unit) : Entity Unit Unit :=
  recordE first (optional none (recordE first (.recurs 1)) fun s =>
    some (.bool (s.input[s.iter.meter]? = some 98)))

/-- A leaf as a case: the recursions of `bbbeee` end where they should. -/
theorem nested_leaf_traverse : (nested (.primitive (byteLeaf 97))).compile false none [] {} =
        .ok (compiled (nested (.primitive (byteLeaf 97)))) ∧
      (nested (.primitive (byteLeaf 97))).leafCases ∧
      ∃ s fuel, traverse (compiled (nested (.primitive (byteLeaf 97)))).1
        (compiled (nested (.primitive (byteLeaf 97)))).2 true [98, 98, 98, 101, 101, 101] fuel =
          some (.done s) := by
  have hcompile := compile_eq (nested (.primitive (byteLeaf 97))) (by decide +kernel)
  have hleaf : (nested (.primitive (byteLeaf 97))).leafCases = true := by decide +kernel
  have hread : Reading.succeeds ((nested (.primitive (byteLeaf 97))).parse 0 none
      [98, 98, 98, 101, 101, 101]) = true := by decide +kernel
  generalize nested (.primitive (byteLeaf 97)) = entity at hcompile hleaf hread ⊢
  obtain ⟨s, hs⟩ := Reading.succeeds_iff.mp hread
  exact ⟨hcompile, hleaf, s,
    ((backtracking_restores hcompile hleaf true [98, 98, 98, 101, 101, 101]).2 _).mpr ⟨0, hs⟩⟩

/-- The next turn catches a failure and starts another case, with the level one higher than the
failed case found it. -/
def levelLost (g : Graph Unit Unit) (s : Traced Unit) : Bool :=
  match s.next g, s.pc.bind fun i => raised g i s.ctx, s.started.head? with
  | some t, some c, some start => !c.catches.isEmpty && t.ctx.level == start.level + 1 &&
      (t.pc.bind g.node).any fun nd => nd.catchEntity.isSome
  | _, _, _ => false

theorem levelLost_spec {g : Graph Unit Unit} {s : Traced Unit} (h : levelLost g s = true) :
    ∃ t c start, s.next g = some t ∧ Catches g s c ∧ s.started.head? = some start ∧
      t.ctx.level = start.level + 1 ∧ ∃ nd, t.pc.bind g.node = some nd ∧ nd.catchEntity.isSome := by
  unfold levelLost at h
  split at h
  · next t c start ht hc hstart =>
    obtain ⟨i, hi, hr⟩ := Option.bind_eq_some_iff.mp hc
    simp only [Bool.and_eq_true, Bool.not_eq_true', beq_iff_eq, List.isEmpty_eq_false_iff] at h
    exact ⟨t, c, start, ht, ⟨i, hi, hr, h.1.1⟩, hstart, h.1.2, (Option.any_eq_true _ _).mp h.2⟩
  · cases h

theorem nested_record_levelLost : (stateAfter (Traced.next (compiled (nested recordA)).1) 8
      ⟨some (compiled (nested recordA)).2, .start [98, 98, 98, 101, 101, 101] true, []⟩).any
      (levelLost (compiled (nested recordA)).1) = true := by decide +kernel

def Reading.fails : Option (Reading ν) → Bool
  | some (.failed _ _) => true
  | _ => false

/-- **The level is not restored.** A record that fails as a case leaves the level one too high for
the next case. In `bbbeee` the first recursion then does not end with the optional, the traversal
asks for an `e` too many, and an input is refused that the grammar reads. -/
theorem nested_record_traverse :
    (nested recordA).compile false none [] {} = .ok (compiled (nested recordA)) ∧
      (∃ n t t' c start, Steps (fun s t => s.next (compiled (nested recordA)).1 = some t) n
          ⟨some (compiled (nested recordA)).2, .start [98, 98, 98, 101, 101, 101] true, []⟩ t ∧
        t.next (compiled (nested recordA)).1 = some t' ∧
        Catches (compiled (nested recordA)).1 t c ∧ t.started.head? = some start ∧
        t'.ctx.level = start.level + 1 ∧
        ∃ nd, t'.pc.bind (compiled (nested recordA)).1.node = some nd ∧ nd.catchEntity.isSome) ∧
      Reading.fails (traverse (compiled (nested recordA)).1 (compiled (nested recordA)).2 true
        [98, 98, 98, 101, 101, 101] 90) ∧
      Reading.succeeds ((nested recordA).parse 0 none [98, 98, 98, 101, 101, 101]) := by
  refine ⟨compile_eq _ (by decide +kernel), ?_, by decide +kernel, by decide +kernel⟩
  obtain ⟨t, ht, hlost⟩ := (Option.any_eq_true _ _).mp nested_record_levelLost
  obtain ⟨t', c, start, ht', hc, hst, hl⟩ := levelLost_spec hlost
  exact ⟨8, t, t', c, start, stateAfter_steps ht, ht', hc, hst, hl⟩

end Haka.Grammar
