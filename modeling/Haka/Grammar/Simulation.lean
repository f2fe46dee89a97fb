import Haka.Lib.Steps
import Haka.Grammar.Code
import Haka.Grammar.Reading

/-!
# The traversal follows the reading

The code of an entity makes the traversal do what the reading of the entity does (`body_sim`): the same
leaf parsers at the same positions, the same results, and success, failure or a Lua error alike.

For the proof the traversal also keeps the contexts in which the cases of the open tries started
(`Traced`). `catch` gives back neither the nesting level nor the recursions. The statement therefore
has two forms, by the flag `strict`. With it, all cases of a try but the last are leaf parsers: these
fail where they start, with the level and the recursions as they were (`Clean`), and after the last
case there is only an error. Without it there is no such condition, but the grammar has no
references: then a level that is too high does no harm.
-/

namespace Haka.Grammar

open List Context

variable {κ ν : Type} [DecidableEq κ]

/-! ## Traced traversals -/

/-- The node of the next turn, the context, and the contexts in which the cases of the open tries
started, the innermost first. -/
structure Traced (ν : Type) where
  pc : Option ℕ
  ctx : Context ν
  started : List (Context ν)

def raised (g : Graph κ ν) (i : ℕ) (c : Context ν) : Option (Context ν) := do
  let nd ← g.node i
  let c ← nd.apply { c with startRec := false }
  if c.error.isSome then some c else none

/-- The cases that are open after a turn. -/
def startedAfter (g : Graph κ ν) (i : ℕ) (c : Context ν) (started : List (Context ν)) :
    List (Context ν) :=
  if (raised g i c).isSome then started.tail
  else
    match (g.node i).map Node.kind with
    | some (.tryStart _) => c :: started
    | some (.tryFinish _) => started.tail
    | _ => started

/-- The failure left the nesting level and the recursions as the case found them. -/
def Clean (c start : Context ν) : Prop :=
  c.level = start.level ∧ c.levelExit = start.levelExit ∧ c.recurs = start.recurs

/-- The position, the results and the marks are those the case started with. -/
structure Restored (c start : Context ν) : Prop where
  iter : c.iter = start.iter
  results : c.results = start.results
  marks : c.marks = start.marks
  retainMark : c.retainMark = start.retainMark

/-- What `Try` fails with when no case has succeeded. -/
def noCase : String := "cannot find a successful try case"

/-- The last case of a try has failed. -/
def NoCaseLeft (g : Graph κ ν) (s : Traced ν) : Prop := ∃ i, s.pc = some i ∧ Fails g.node i noCase

/-- One turn of the loop. After a caught error the next case starts as the failed one did; under
`strict` level and recursions are those of the start as well, if there is a next case. -/
structure Turn (g : Graph κ ν) (strict : Bool) (s t : Traced ν) : Prop where
  step : ∃ i, s.pc = some i ∧ step g i s.ctx = some (t.pc, t.ctx) ∧
    t.started = startedAfter g i s.ctx s.started
  restored : ∀ i c, s.pc = some i → raised g i s.ctx = some c → c.catches ≠ [] →
    ∃ start rest, s.started = start :: rest ∧ Restored t.ctx start ∧
      (strict → NoCaseLeft g t ∨ Clean t.ctx start)

def Crashes (g : Graph κ ν) (s : Traced ν) : Prop := ∃ i, s.pc = some i ∧ step g i s.ctx = none

def LevelKept (strict : Bool) (level level' : ℤ) : Prop :=
  if strict then level' = level else level ≤ level'

/-- An error was raised inside of what started with `c`. -/
structure Inside (strict : Bool) (c c' : Context ν) : Prop where
  catches : c'.catches = c.catches
  results : c.results <:+ c'.results
  marks : c.marks <:+ c'.marks
  retainMark : c.retainMark <:+ c'.retainMark
  startRec : c'.startRec = c.startRec
  level : strict = false → c.level ≤ c'.level ∧ c'.recurs = c.recurs ∧ c'.levelExit = c.levelExit

/-- The traversal from `s` does what the reading says and goes on at `k`, in the context `c` as far
as the reading does not change it. -/
def Meets (g : Graph κ ν) (strict : Bool) (fuel : ℕ) (c : Context ν) (started : List (Context ν))
    (k : Option ℕ) (s : Traced ν) (r : Option (Reading ν)) : Prop :=
  match r with
  | none => ∃ n t, fuel ≤ n ∧ Steps (Turn g strict) n s t
  | some .crashed => ∃ n t, Steps (Turn g strict) n s t ∧ Crashes g t
  | some (.done s') => ∃ n level, Steps (Turn g strict) n s
      ⟨k, { c with toState := s', level }, started⟩ ∧ LevelKept strict c.level level
  | some (.failed s' msg) => ∃ n i ci ce, Steps (Turn g strict) n s ⟨some i, ci, started⟩ ∧
      raised g i ci = some ce ∧ ce.toState = s' ∧ ce.error = some msg ∧ Inside strict c ce ∧
      (ce.catches ≠ [] → ce.levelExit < ce.level)

section Rules

variable {g : Graph κ ν} {strict : Bool} {fuel : ℕ} {c c1 c2 : Context ν}
  {started : List (Context ν)} {k k1 : Option ℕ} {s t : Traced ν} {r : Option (Reading ν)}

theorem LevelKept.refl (strict : Bool) (level : ℤ) : LevelKept strict level level := by
  cases strict <;> simp [LevelKept]

theorem LevelKept.trans {a b d : ℤ} (h : LevelKept strict a b) (h' : LevelKept strict b d) :
    LevelKept strict a d := by
  cases strict <;> simp [LevelKept] at * <;> omega

theorem LevelKept.le {a b : ℤ} (h : LevelKept strict a b) : a ≤ b := by
  cases strict <;> simp [LevelKept] at * <;> omega

theorem Inside.refl (strict : Bool) (c : Context ν) : Inside strict c c :=
  ⟨rfl, suffix_rfl, suffix_rfl, suffix_rfl, rfl, fun _ => ⟨le_rfl, rfl, rfl⟩⟩

theorem Inside.trans (h : Inside strict c c1) (h' : Inside strict c1 c2) : Inside strict c c2 where
  catches := h'.catches.trans h.catches
  results := h.results.trans h'.results
  marks := h.marks.trans h'.marks
  retainMark := h.retainMark.trans h'.retainMark
  startRec := h'.startRec.trans h.startRec
  level hs :=
    ⟨(h.level hs).1.trans (h'.level hs).1, (h'.level hs).2.1.trans (h.level hs).2.1,
      (h'.level hs).2.2.trans (h.level hs).2.2⟩

variable {s' : State ν} {level : ℤ}

theorem Inside.kept (h : LevelKept strict c.level level) :
    Inside strict c { c with toState := s', level } :=
  ⟨rfl, suffix_rfl, suffix_rfl, suffix_rfl, rfl, fun _ => ⟨h.le, rfl, rfl⟩⟩

theorem Meets.done (h : LevelKept strict c.level level) :
    Meets g strict fuel c started k ⟨k, { c with toState := s', level }, started⟩
      (some (.done s')) :=
  ⟨0, level, .refl _, h⟩

theorem Meets.head (h : Turn g strict s t) (h' : Meets g strict fuel c started k t r) :
    Meets g strict fuel c started k s r := by
  rcases r with _ | _ | ⟨_, _⟩ | _
  · obtain ⟨n, u, hf, hn⟩ := h'
    exact ⟨n + 1, u, by omega, .head h hn⟩
  · obtain ⟨n, level, hn, hl⟩ := h'
    exact ⟨n + 1, level, .head h hn, hl⟩
  · obtain ⟨n, i, ci, ce, hn, hu⟩ := h'
    exact ⟨n + 1, i, ci, ce, .head h hn, hu⟩
  · obtain ⟨n, u, hn, hu⟩ := h'
    exact ⟨n + 1, u, .head h hn, hu⟩

theorem Meets.steps {n : ℕ} (h : Steps (Turn g strict) n s t)
    (h' : Meets g strict fuel c started k t r) : Meets g strict fuel c started k s r := by
  induction h with
  | refl => exact h'
  | head hst _ ih => exact (ih h').head hst

theorem Meets.andThen {f : State ν → Option (Reading ν)}
    (h : Meets g strict fuel c1 started k1 s r) (hin : Inside strict c c1)
    (hf : ∀ s' level, LevelKept strict c1.level level →
      Meets g strict fuel c started k ⟨k1, { c1 with toState := s', level }, started⟩ (f s')) :
    Meets g strict fuel c started k s (Reading.andThen r f) := by
  rcases r with _ | s' | ⟨s', msg⟩ | _
  · exact h
  · obtain ⟨n, level, hn, hl⟩ := h
    exact (hf s' level hl).steps hn
  · obtain ⟨n, i, ci, ce, hn, hr, hs, he, hce, hlevel⟩ := h
    exact ⟨n, i, ci, ce, hn, hr, hs, he, hin.trans hce, hlevel⟩
  · exact h

theorem Reading.andThen_done (r : Option (Reading ν)) :
    Reading.andThen r (fun s => some (.done s)) = r := by
  rcases r with _ | _ | ⟨_, _⟩ | _ <;> rfl

theorem Meets.rebase (hl : LevelKept strict c.level level)
    (h : Meets g strict fuel { c with toState := s', level } started k s r) :
    Meets g strict fuel c started k s r := by
  rw [← Reading.andThen_done r]
  exact h.andThen (.kept hl) fun s'' level' hl' => .done (hl.trans hl')

end Rules

/-! ## Turns -/

section Turns

variable {g : Graph κ ν} {strict : Bool} {fuel : ℕ} {c c' : Context ν}
  {started : List (Context ν)} {i : ℕ} {k : Option ℕ} {kind : NodeKind κ ν}

theorem leave_stay {iter : Option ℕ} (h : c.startRec = true ∨ c.levelExit ≠ c.level) :
    ∀ frames, leave frames iter c = (iter, c)
  | [] => by
    rcases h with h | h
    · simp [leave, h]
    · simp [leave, Ne.symm h]
  | _ :: _ => by
    rcases h with h | h
    · simp [leave, h]
    · simp [leave, Ne.symm h]

theorem startRec_eta (h : c.startRec = false) : { c with startRec := false } = c := by
  cases c
  simp_all

variable {nd : Node κ ν}

theorem step_eq (hi : g.node i = some nd) (ha : nd.apply { c with startRec := false } = some c')
    (he : c'.error = none) (hnext : nd.nextNode c' = some k) :
    step g i c = some (leave c'.recurs k c') := by
  simp [step, hi, ha, he, hnext]

omit [DecidableEq κ] in
theorem raised_eq_none (hi : g.node i = some nd)
    (ha : nd.apply { c with startRec := false } = some c') (he : c'.error = none) :
    raised g i c = none := by
  simp [raised, hi, ha, he]

omit [DecidableEq κ] in
theorem raised_eq_some (hi : g.node i = some nd)
    (ha : nd.apply { c with startRec := false } = some c') (he : c'.error.isSome) :
    raised g i c = some c' := by
  simp [raised, hi, ha, he]

variable {k' : Option ℕ} {c'' : Context ν} {started' : List (Context ν)}

/-- The cases that are open after a node that raises no error. -/
def NodeKind.opens (kind : NodeKind κ ν) (c : Context ν) (started : List (Context ν)) :
    List (Context ν) :=
  match kind with
  | .tryStart _ => c :: started
  | .tryFinish _ => started.tail
  | _ => started

theorem turn_of_apply (hi : g.node i = some nd)
    (ha : nd.apply { c with startRec := false } = some c') (he : c'.error = none)
    (hnext : nd.nextNode c' = some k) (hl : leave c'.recurs k c' = (k', c''))
    (hst : nd.kind.opens c started = started') :
    Turn g strict ⟨some i, c, started⟩ ⟨k', c'', started'⟩ where
  step := by
    refine ⟨i, rfl, by rw [step_eq hi ha he hnext, hl], ?_⟩
    rw [startedAfter, raised_eq_none hi ha he, ← hst]
    simp only [Option.isSome_none, Bool.false_eq_true, if_false, hi, Option.map_some]
    cases nd.kind <;> rfl
  restored j ce hj hr _ := by
    cases hj
    rw [raised_eq_none hi ha he] at hr
    cases hr

def NodeKind.plain : NodeKind κ ν → Bool
  | .branch _ | .tryStart _ | .tryFinish _ | .recurs _ => false
  | _ => true

omit [DecidableEq κ] in
theorem apply_plain (h : nd.kind.plain) : nd.apply c = ({ nd with
    next := none, cases := [], catchEntity := none } : Node κ ν).apply c := by
  obtain ⟨kind, _, _, _⟩ := nd
  cases kind with
  | recordStart name => cases name <;> rfl
  | _ => first | rfl | cases h

theorem Points.turn_of_apply (h : Points g.node i kind k) (hp : kind.plain)
    (ha : ({ kind } : Node κ ν).apply { c with startRec := false } = some c')
    (he : c'.error = none) (hl : leave c'.recurs k c' = (k', c'')) :
    Turn g strict ⟨some i, c, started⟩ ⟨k', c'', started⟩ := by
  obtain ⟨nd, hi, rfl, rfl⟩ := h
  have hnext : nd.nextNode c' = some nd.next := by
    cases hk : nd.kind <;> simp [NodeKind.plain, hk] at hp <;> simp [Node.nextNode, hk]
  have ha' : nd.apply { c with startRec := false } = some c' := by rw [apply_plain hp, ← ha]
  have hst : nd.kind.opens c started = started := by
    cases hk : nd.kind <;> simp [NodeKind.plain, hk] at hp <;> rfl
  exact Grammar.turn_of_apply hi ha' he hnext hl hst

theorem Points.turn (h : Points g.node i kind k) (hp : kind.plain) (hs : c.startRec = false)
    (ha : ({ kind } : Node κ ν).apply c = some c') (he : c'.error = none)
    (hl : c'.levelExit ≠ c'.level) :
    Turn g strict ⟨some i, c, started⟩ ⟨k, c', started⟩ :=
  h.turn_of_apply hp (by rw [startRec_eta hs, ha]) he (leave_stay (.inr hl) _)

end Turns

/-! ## Single entities -/

/-- A context in which an entity can be read, inside of a compound and of at most `depth` more
recursions. -/
structure Ready (depth : ℕ) (c : Context ν) : Prop where
  error : c.error = none
  startRec : c.startRec = false
  results : c.results ≠ []
  recurs : c.recurs.length + depth = maxRecursion
  level : c.levelExit < c.level

/-- The nodes from `m` to `k` do what `f` reads. -/
def Sim (g : Graph κ ν) (strict : Bool) (fuel depth m : ℕ) (k : Option ℕ)
    (f : List ℕ → State ν → Option (Reading ν)) : Prop :=
  ∀ c started, Ready depth c →
    Meets g strict fuel c started k ⟨some m, c, started⟩ (f c.results c.toState)

section Sim

variable {g : Graph κ ν} {strict : Bool} {fuel depth : ℕ} {c : Context ν}
  {started : List (Context ν)} {m : ℕ} {k : Option ℕ}
  {f : List ℕ → State ν → Option (Reading ν)}

variable {s : State ν} {ce : Context ν} {named : Option String} {j n entity : ℕ}

variable {level : ℤ}

theorem Ready.inner (h : Ready depth c) (strict : Bool) (s : State ν) {results : List ℕ}
    {marks : List Mark} {retainMark : List (Position × Bool)} (hresults : c.results <:+ results)
    (hmarks : c.marks <:+ marks) (hretain : c.retainMark <:+ retainMark) (hl : c.level ≤ level) :
    Ready depth { c with toState := s, results, marks, retainMark, level } ∧
      Inside strict c { c with toState := s, results, marks, retainMark, level } :=
  ⟨⟨h.error, h.startRec, fun he => h.results (suffix_nil.1 (he ▸ hresults)), h.recurs,
    h.level.trans_le hl⟩, ⟨rfl, hresults, hmarks, hretain, rfl, fun _ => ⟨hl, rfl, rfl⟩⟩⟩

theorem Ready.kept (h : Ready depth c) (hl : LevelKept strict c.level level) : Ready depth
    { c with toState := s, level } :=
  (h.inner strict s suffix_rfl suffix_rfl suffix_rfl hl.le).1

/-- A body between a node that opens a context around it and one that closes it again. -/
theorem Meets.bracket {kind kind' : NodeKind κ ν} {c1 : Context ν} {r : Option (Reading ν)}
    {x : ℕ} (hc : Ready depth c) (hc1 : Ready depth c1 ∧ Inside strict c c1)
    (hm : Points g.node m kind (some j)) (hp : kind.plain)
    (ha : ({ kind } : Node κ ν).apply c = some c1)
    (hbody : Meets g strict fuel c1 started (some x) ⟨some j, c1, started⟩ r)
    (hx : Points g.node x kind' k) (hp' : kind'.plain)
    (hclose : ∀ s level, LevelKept strict c1.level level →
      ∃ level', LevelKept strict c.level level' ∧ ({ kind := kind' } : Node κ ν).apply
        { c1 with toState := s, level } = some { c with toState := s, level := level' }) :
    Meets g strict fuel c started k ⟨some m, c, started⟩ r := by
  refine Meets.head (hm.turn hp hc.startRec ha hc1.1.error hc1.1.level.ne) ?_
  rw [← Reading.andThen_done r]
  refine hbody.andThen hc1.2 fun s level hl => ?_
  obtain ⟨level', hl', ha'⟩ := hclose s level hl
  exact Meets.head (hx.turn hp' hc1.1.startRec ha' hc.error (hc.kept (s := s) hl').level.ne)
    (.done hl')

theorem wrapped_sim {ret x : ℕ} (hm : Points g.node m .compoundStart (some ret))
    (hbody : Sim g strict fuel depth ret (some x) f) (hx : Points g.node x .compoundFinish k) :
    Sim g strict fuel depth m k f := by
  intro c started hc
  have hc1 := hc.inner strict c.toState suffix_rfl suffix_rfl suffix_rfl
    (show c.level ≤ c.level + 1 by omega)
  refine Meets.bracket hc hc1 hm rfl rfl (hbody _ started hc1.1) hx rfl fun s level hl =>
    ⟨level - 1, ?_, rfl⟩
  cases strict <;> simp [LevelKept] at * <;> omega

theorem Ready.result (h : Ready depth c) :
    ∃ res rest, c.results = res :: rest ∧ c.result = some res := by
  obtain ⟨res, rest, hres⟩ := exists_cons_of_ne_nil h.results
  exact ⟨res, rest, hres, by rw [Context.result, hres, head?_cons]⟩

variable {msg : String}

theorem Meets.raise {nd : Node κ ν} (hc : c.startRec = false)
    (hi : g.node m = some nd) (ha : nd.apply c = some ce) (hs : ce.toState = s)
    (he : ce.error = some msg) (hin : Inside strict c ce)
    (hlevel : ce.catches ≠ [] → ce.levelExit < ce.level) :
    Meets g strict fuel c started k ⟨some m, c, started⟩ (some (.failed s msg)) := by
  rw [← startRec_eta hc] at ha
  exact ⟨0, m, c, ce, .refl _, raised_eq_some hi ha (by rw [he]; rfl), hs, he, hin, hlevel⟩

variable {p : Primitive ν}

omit [DecidableEq κ] in
theorem leaf_apply (p : Primitive ν) (named : Option String) (hr : c.results ≠ []) :
    ({ kind := .primitive p named } : Node κ ν).apply c =
    let (store, iter, error) := p.parse named (c.scope c.results)
    some { c with
      store, iter, error, trace := c.trace ++ [{ leaf := p, named, iter := c.iter }] } := by
  obtain ⟨res, rest, hres⟩ := exists_cons_of_ne_nil hr
  have hr : c.result = some res := by rw [Context.result, hres, head?_cons]
  simp only [Node.apply, hr]
  rfl

omit [DecidableEq κ] in
/-- A leaf parser that fails does so where it starts. -/
theorem leaf_raises {s' : State ν} (hm : Points g.node m (.primitive p named) k)
    (hstart : c.startRec = false) (hresults : c.results ≠ [])
    (hread : readLeaf p named c.results c.toState = .failed s' msg) :
    ∃ ce, raised g m c = some ce ∧ ce.toState = s' ∧ ce.error = some msg ∧ Inside strict c ce ∧
      Clean ce c := by
  obtain ⟨nd, hi, hkind, -⟩ := hm
  have hplain : nd.kind.plain := by rw [hkind]; rfl
  have ha := leaf_apply (κ := κ) p named hresults
  rcases hp : p.parse named (c.scope c.results) with ⟨store, iter, _ | msg'⟩
  · simp only [readLeaf, hp] at hread
    cases hread
  · simp only [readLeaf, hp] at hread
    cases hread
    rw [hp] at ha
    have ha' : nd.apply { c with startRec := false } = some { c with
        store, iter, error := some msg
        trace := c.trace ++ [{ leaf := p, named, iter := c.iter }] } := by
      rw [startRec_eta hstart, apply_plain hplain, hkind]
      exact ha
    refine ⟨_, raised_eq_some hi ha' rfl, rfl, rfl, ?_, rfl, rfl, rfl⟩
    exact ⟨rfl, suffix_rfl, suffix_rfl, suffix_rfl, rfl, fun _ => ⟨le_rfl, rfl, rfl⟩⟩

theorem leaf_meets (hm : Points g.node m (.primitive p named) k)
    (herror : c.error = none) (hstart : c.startRec = false) (hresults : c.results ≠ [])
    (hlevel : c.catches ≠ [] → c.levelExit < c.level)
    (hleave : ∀ s : State ν,
      leave c.recurs k { c with toState := s } = (k, { c with toState := s })) :
    Meets g strict fuel c started k ⟨some m, c, started⟩
      (some (readLeaf p named c.results c.toState)) := by
  cases hread : readLeaf p named c.results c.toState with
  | crashed =>
    unfold readLeaf at hread
    split at hread
    split at hread <;> cases hread
  | failed s' msg =>
    obtain ⟨ce, hr, hs, he, hin, hclean⟩ := leaf_raises hm hstart hresults hread
    refine ⟨0, m, c, ce, .refl _, hr, hs, he, hin, ?_⟩
    rwa [hin.catches, hclean.1, hclean.2.1]
  | done s' =>
    have ha := leaf_apply (κ := κ) p named hresults
    rcases hp : p.parse named (c.scope c.results) with ⟨store, iter, _ | msg'⟩
    · simp only [readLeaf, hp] at hread
      cases hread
      rw [hp, ← herror] at ha
      exact Meets.head (hm.turn_of_apply rfl ((congrArg _ (startRec_eta hstart)).trans ha) herror
        (hleave _)) (.done (.refl _ _))
    · simp only [readLeaf, hp] at hread
      cases hread

theorem leaf_sim (hm : Points g.node m (.primitive p named) k) :
    Sim g strict fuel depth m k fun results s => some (readLeaf p named results s) :=
  fun c _ hc => leaf_meets hm hc.error hc.startRec hc.results (fun _ => hc.level) fun s =>
    leave_stay (.inr (show ({ c with toState := s } : Context ν).levelExit ≠ _ from hc.level.ne)) _

/-- The result of a record or a sequence. -/
def readFields (f : List ℕ → State ν → Option (Reading ν)) (named : Option String)
    (results : List ℕ) (s : State ν) : Option (Reading ν) :=
  match named with
  | none => f results s
  | some name => f ((s.newField results name).2 :: results) (s.newField results name).1

theorem fields_sim {pop : ℕ} (hm : Points g.node m (.recordStart named) (some j))
    (hf : Sim g strict fuel depth j (some pop) f)
    (hpop : Points g.node pop (.recordFinish named.isSome) k) :
    Sim g strict fuel depth m k (readFields f named) := by
  intro c started hc
  obtain ⟨res, rest, hres, hr⟩ := hc.result
  cases named with
  | none =>
    refine Meets.bracket hc ⟨hc, .refl _ _⟩ hm rfl rfl (hf c started hc) hpop rfl
      fun s level hl => ⟨level, hl, ?_⟩
    simp [Node.apply, Context.result, hres]
  | some name =>
    have hc1 := hc.inner strict (c.toState.newField c.results name).1
      (suffix_cons (c.toState.newField c.results name).2 _) suffix_rfl suffix_rfl le_rfl
    refine Meets.bracket hc hc1 hm rfl ?_ (hf _ started hc1.1) hpop rfl fun s level hl =>
      ⟨level, hl, rfl⟩
    simp [Node.apply, hr, State.newField, Context.push, hres]

theorem retain_sim {readonly : Bool} {start release : ℕ}
    (hm : Points g.node m (.retain readonly) (some start))
    (hf : Sim g strict fuel depth start (some release) f)
    (hrelease : Points g.node release .release k) : Sim g strict fuel depth m k f := by
  intro c started hc
  have hc1 := hc.inner strict c.toState suffix_rfl suffix_rfl
    (suffix_cons (c.iter, readonly) c.retainMark) le_rfl
  exact Meets.bracket hc hc1 hm rfl rfl (hf _ started hc1.1) hrelease rfl fun s level hl =>
    ⟨level, hl, rfl⟩

/-! ## Branches and arrays -/

theorem Branches.turn {selector : Scope ν → Option (Key κ)} {cases : List (Key κ × ℕ)}
    (h : Branches g.node m selector cases k) (hc : Ready depth c) :
    Turn g strict ⟨some m, c, started⟩
      ⟨((cases.find? fun p => some p.1 = selector (c.scope c.results)).map Prod.snd).or k, c,
        started⟩ := by
  obtain ⟨nd, hi, hkind, rfl, rfl⟩ := h
  obtain ⟨res, rest, hres, hr⟩ := hc.result
  have ha : nd.apply { c with startRec := false } = some c := by
    rw [startRec_eta hc.startRec]
    simp [Node.apply, hkind]
  have hnext : nd.nextNode c = some (((nd.cases.find? fun p =>
      some p.1 = selector (c.scope c.results)).map Prod.snd).or nd.next) := by
    simp [Node.nextNode, hkind, hr]
  exact turn_of_apply hi ha hc.error hnext (leave_stay (.inr hc.level.ne) _) (by rw [hkind]; rfl)

variable {r : Option (Reading ν)}

theorem Meets.of_le {s : Traced ν} (hn : n ≤ fuel)
    (h : Meets g strict fuel c started k s r) : Meets g strict n c started k s r := by
  rcases r with _ | _ | ⟨_, _⟩ | _
  · obtain ⟨m, t, hm, ht⟩ := h
    exact ⟨m, t, by omega, ht⟩
  all_goals exact h

theorem Meets.head_succ {s t : Traced ν} (h : Turn g strict s t)
    (h' : Meets g strict fuel c started k t r) : Meets g strict (fuel + 1) c started k s r := by
  rcases r with _ | _ | ⟨_, _⟩ | _
  · obtain ⟨n, u, hf, hn⟩ := h'
    exact ⟨n + 1, u, by omega, .head h hn⟩
  all_goals exact h'.head h

variable {more : More ν} {finish : ℕ}

theorem loop_sim {loop push pop : ℕ}
    (hloop : Branches g.node loop more.selector [(.bool true, push)] (some finish))
    (hpush : Points g.node push .arrayPush (some n)) (hf : Sim g strict fuel depth n (some pop) f)
    (hpop : Points g.node pop .arrayPop (some loop)) :
    ∀ (elements : ℕ) (c : Context ν), elements ≤ fuel → Ready depth c →
      Meets g strict elements c started (some finish) ⟨some loop, c, started⟩
        (readArray more f c.results elements c.toState) := by
  intro elements
  induction elements with
  | zero => intro c _ _; exact ⟨0, _, le_rfl, .refl _⟩
  | succ elements ih =>
    intro c hle hc
    obtain ⟨res, rest, hres, hr⟩ := hc.result
    have ht : Turn g strict ⟨some loop, c, started⟩ ⟨_, c, started⟩ := hloop.turn hc
    cases hmore : more.test (c.scope c.results) with
    | false =>
      simp only [More.selector, hmore] at ht
      simp only [readArray, hmore]
      exact Meets.head_succ ht (.done (.refl _ _))
    | true =>
      simp only [More.selector, hmore] at ht
      refine Meets.head_succ ht ?_
      simp only [readArray, hmore, if_true]
      let new := c.store.new
      obtain ⟨hc1, hin⟩ := hc.inner strict
        { c.toState with store := new.1.insert (c.results.headD 0) new.2 }
        (suffix_cons new.2 _) suffix_rfl suffix_rfl le_rfl
      have ha : ({ kind := .arrayPush } : Node κ ν).apply c = some { c with
          store := new.1.insert (c.results.headD 0) new.2, results := new.2 :: c.results } := by
        simp [Node.apply, hr, new, Context.push, hres]
      refine Meets.head (hpush.turn rfl hc.startRec ha hc.error hc.level.ne) ?_
      refine ((hf _ started hc1).of_le (by omega)).andThen hin fun s level hl => ?_
      have hc' : Ready depth { c with toState := s, level } := hc.kept hl
      exact Meets.head (hpop.turn rfl hc.startRec rfl hc.error hc'.level.ne)
        (.rebase hl (ih { c with toState := s, level } (by omega) hc'))

/-- The result of an array. -/
def readItems (more : More ν) (element : List ℕ → State ν → Option (Reading ν)) (fuel : ℕ)
    (named : Option String) (results : List ℕ) (s : State ν) : Option (Reading ν) :=
  let new := match named with
    | some name => s.newField results name
    | none => s.newResult
  readArray more element (new.2 :: results) fuel new.1

theorem array_sim {loop push pop : ℕ} (hm : Points g.node m (.arrayStart named) (some loop))
    (hloop : Branches g.node loop more.selector [(.bool true, push)] (some finish))
    (hpush : Points g.node push .arrayPush (some n)) (hf : Sim g strict fuel depth n (some pop) f)
    (hpop : Points g.node pop .arrayPop (some loop)) (hfinish : Points g.node finish .resultPop k) :
    Sim g strict fuel depth m k (readItems more f fuel named) := by
  intro c started hc
  obtain ⟨res, rest, hres, hr⟩ := hc.result
  obtain ⟨new, hnew⟩ : ∃ new, new = match named with
    | some name => c.toState.newField c.results name
    | none => c.toState.newResult := ⟨_, rfl⟩
  have hc1 := hc.inner strict new.1 (suffix_cons new.2 _) suffix_rfl suffix_rfl le_rfl
  have hread : readItems more f fuel named c.results c.toState =
      readArray more f (new.2 :: c.results) fuel new.1 := by
    unfold readItems
    rw [← hnew]
  rw [hread]
  refine Meets.bracket hc hc1 hm rfl ?_ (loop_sim hloop hpush hf hpop fuel _ le_rfl hc1.1) hfinish
    rfl fun s level hl => ⟨level, hl, rfl⟩
  cases named <;>
    simp [Node.apply, hr, hnew, State.newField, State.newResult, Context.push, hres]

/-! ## Tries -/

theorem fails_sim (hm : Fails g.node m msg) :
    Sim g strict fuel depth m k fun _ s => some (.failed s msg) := by
  intro c started hc
  obtain ⟨nd, hi, hkind⟩ := hm
  have ha : nd.apply c = some { c with error := some msg } := by simp [Node.apply, hkind]
  exact Meets.raise hc.startRec hi ha rfl rfl ⟨rfl, suffix_rfl, suffix_rfl, suffix_rfl, rfl,
    fun _ => ⟨le_rfl, rfl, rfl⟩⟩ fun _ => hc.level

def attempt (c : Context ν) (entity : ℕ) : Context ν := c.push.1.pushcatch (some entity)

theorem Attempts.turn (h : Attempts g.node m named entity j) (hc : Ready depth c) :
    Turn g strict ⟨some m, c, started⟩ ⟨some j, attempt c entity, c :: started⟩ := by
  obtain ⟨nd, hi, hkind, hcatch, hnext⟩ := h
  have ha : nd.apply { c with startRec := false } = some (attempt c entity) := by
    rw [startRec_eta hc.startRec]
    simp [Node.apply, hkind, hcatch, attempt]
  have hn : nd.nextNode (attempt c entity) = some (some j) := by
    simp [Node.nextNode, hkind, hnext]
  exact turn_of_apply hi ha hc.error hn
    (leave_stay (.inr (show (attempt c entity).levelExit ≠ _ from hc.level.ne)) _)
    (by rw [hkind]; rfl)

theorem finish_turn (h : Points g.node m (.tryFinish named) k) (hc : Ready depth c)
    (hl : LevelKept strict c.level level) :
    Turn g strict ⟨some m, { attempt c entity with toState := s, level }, c :: started⟩
      ⟨k, { c with toState := s.mergeUnnamed named (c.results.headD 0) c.store.new.2, level },
        started⟩ := by
  obtain ⟨nd, hi, hkind, hnext⟩ := h
  obtain ⟨res, rest, hres, hr⟩ := hc.result
  have hlevel := hc.level.trans_le hl.le
  obtain ⟨c1, hc1⟩ : ∃ c1 : Context ν, c1 = { attempt c entity with toState := s, level } :=
    ⟨_, rfl⟩
  have hs : c1.startRec = false := hc1 ▸ hc.startRec
  have ha : nd.apply { c1 with startRec := false } = some { c with
      toState := s.mergeUnnamed named (c.results.headD 0) c.store.new.2, level } := by
    rw [startRec_eta hs, hc1]
    cases named <;>
      simp [Node.apply, hkind, attempt, Context.result, pop, popcatch,
        popmark, unmark, pushcatch, mark, pushmark,
        Context.push, State.mergeUnnamed, hres]
  rw [← hc1]
  exact turn_of_apply hi ha hc.error (by simp [Node.nextNode, hkind, hnext])
    (leave_stay (.inr hlevel.ne) _) (by rw [hkind]; rfl)

omit [DecidableEq κ] in
theorem raised_spec {i : ℕ} (h : raised g i c = some ce) :
    ∃ nd, g.node i = some nd ∧ nd.apply { c with startRec := false } = some ce ∧
      ∃ msg, ce.error = some msg := by
  unfold raised at h
  simp only [bind, Option.bind_eq_some_iff] at h
  obtain ⟨nd, hi, c', ha, h⟩ := h
  split_ifs at h with he
  cases h
  exact ⟨nd, hi, ha, Option.isSome_iff_exists.mp he⟩

omit [DecidableEq κ] in
theorem seekmark_eq {mark : Mark} {rest : List Mark} (h : c.marks = mark :: rest) :
    ∃ mark' : Mark, mark'.iter = mark.iter ∧ mark'.bitoffset = mark.bitoffset ∧
      c.seekmark = some { c with marks := mark' :: rest, iter := ⟨mark.iter, mark.bitoffset⟩ } := by
  by_cases hlen : (c.iter.meter : ℤ) - mark.iter ≥ mark.maxMeter
  · exact ⟨{ mark with
      maxIter := c.iter.meter, maxMeter := c.iter.meter - mark.iter
      maxBitoffset := max c.iter.bitoffset mark.maxBitoffset }, rfl, rfl,
      by simp only [seekmark, h, hlen, if_true]⟩
  · exact ⟨mark, rfl, rfl, by simp only [seekmark, h, hlen, if_false]⟩

theorem catchError_attempt (hin : Inside strict (attempt c entity) ce) :
    ce.catchError = some (some entity, { ce with
      toState := { ce.toState with iter := c.iter }, results := c.results, marks := c.marks,
      retainMark := c.retainMark, catches := c.catches }) := by
  have hcatches : ce.catches = { entity := some entity
                                 retainCount := (attempt c entity).retainMark.length
                                 markCount := (attempt c entity).marks.length
                                 resultCount := (attempt c entity).results.length } ::
      c.catches := hin.catches
  have hresults := (suffix_iff_eq_drop.mp hin.results).symm
  have hmarks := (suffix_iff_eq_drop.mp hin.marks).symm
  have hretain := (suffix_iff_eq_drop.mp hin.retainMark).symm
  obtain ⟨mark, -, -, hseek⟩ := seekmark_eq (c := { ce with
    results := c.results, marks := (attempt c entity).marks
    retainMark := (attempt c entity).retainMark }) rfl
  simp only [catchError, hcatches, hresults, hmarks, hretain]
  rw [hcatches] at hseek
  exact Option.bind_eq_some_iff.mpr ⟨_, rfl, Option.bind_eq_some_iff.mpr ⟨_, hseek, rfl⟩⟩

/-- A failure is caught. The level and the recursions are those of the failure. -/
theorem catch_turn {i : ℕ} {ci : Context ν} (herror : c.error = none) (hr : raised g i ci = some ce)
    (hin : Inside strict (attempt c entity) ce) (hlevel : ce.levelExit < ce.level)
    (hclean : strict → Fails g.node entity noCase ∨ Clean ce c) :
    Turn g strict ⟨some i, ci, c :: started⟩ ⟨some entity, { c with
      toState := { ce.toState with iter := c.iter }, level := ce.level, levelExit := ce.levelExit,
      recurs := ce.recurs }, started⟩ := by
  obtain ⟨nd, hi, ha, msg, he⟩ := raised_spec hr
  obtain ⟨c', hc'⟩ : ∃ c' : Context ν, c' = { c with
      toState := { ce.toState with iter := c.iter }, level := ce.level, levelExit := ce.levelExit
      recurs := ce.recurs } := ⟨_, rfl⟩
  have hcatch : ce.catchError = some (some entity, { c' with error := ce.error }) := by
    rw [catchError_attempt hin, hc', hin.startRec]
    rfl
  have hstep : step g i ci = some (some entity, c') := by
    simp only [step, hi, ha, he, hcatch, bind, Option.bind_some, pure]
    rw [leave_stay (.inr (by rw [hc']; exact hlevel.ne)), hc', herror]
  rw [← hc']
  refine ⟨⟨i, rfl, hstep, ?_⟩, fun j cj hj hrj _ => ?_⟩
  · rw [startedAfter, hr]
    rfl
  · cases hj
    rw [hr, Option.some.injEq] at hrj
    subst hrj hc'
    exact ⟨c, started, rfl, ⟨rfl, rfl, rfl, rfl⟩, fun h =>
      (hclean h).imp (fun hfails => ⟨entity, rfl, hfails⟩) id⟩

/-- One case of a try, from the reading of the case and that of the cases after it. -/
def readAttempt (f rest : List ℕ → State ν → Option (Reading ν)) (named : Option String)
    (results : List ℕ) (s : State ν) : Option (Reading ν) :=
  match f (s.newResult.2 :: results) s.newResult.1 with
  | some (.done s') => some (.done (s'.mergeUnnamed named (results.headD 0) s.newResult.2))
  | some (.failed s' _) => rest results { s' with iter := s.iter }
  | r => r

/-- A case that fails does so where it starts, or it is the last one. -/
def FailsFirst (g : Graph κ ν) (depth j : ℕ) (f : List ℕ → State ν → Option (Reading ν)) : Prop :=
  ∀ c s' msg, Ready depth c → f c.results c.toState = some (.failed s' msg) →
    ∃ ce, raised g j c = some ce ∧ ce.toState = s' ∧ ce.error = some msg ∧ Inside true c ce ∧
      Clean ce c

theorem attempt_sim {rest : List ℕ → State ν → Option (Reading ν)}
    (hm : Attempts g.node m named entity j) (hf : Sim g strict fuel depth j (some finish) f)
    (hrest : Sim g strict fuel depth entity k rest)
    (hfinish : Points g.node finish (.tryFinish named) k)
    (hfirst : strict → FailsFirst g depth j f ∨
      Fails g.node entity noCase ∧ rest = fun _ s => some (.failed s noCase)) :
    Sim g strict fuel depth m k (readAttempt f rest named) := by
  intro c started hc
  have hc1 : Ready depth (attempt c entity) :=
    ⟨hc.error, hc.startRec, cons_ne_nil _ _, hc.recurs, hc.level⟩
  refine Meets.head (hm.turn hc) ?_
  have h := hf (attempt c entity) (c :: started) hc1
  have hread : f (attempt c entity).results (attempt c entity).toState =
      f (c.toState.newResult.2 :: c.results) c.toState.newResult.1 := rfl
  rw [hread] at h
  unfold readAttempt
  cases hr : f (c.toState.newResult.2 :: c.results) c.toState.newResult.1 with
  | none => rwa [hr] at h
  | some r =>
    rw [hr] at h
    cases r with
    | crashed => exact h
    | done s' =>
      obtain ⟨n, level, hn, hl⟩ := h
      exact (Meets.head (finish_turn hfinish hc hl) (.done hl)).steps hn
    | failed s' msg =>
      obtain ⟨n, i, ci, ce, hn, hrc, rfl, hin, hlevel, hclean⟩ : ∃ n i ci ce,
          Steps (Turn g strict) n ⟨some j, attempt c entity, c :: started⟩
            ⟨some i, ci, c :: started⟩ ∧ raised g i ci = some ce ∧ ce.toState = s' ∧
          Inside strict (attempt c entity) ce ∧ ce.levelExit < ce.level ∧
          (strict → (Fails g.node entity noCase ∧ rest = fun _ s => some (.failed s noCase)) ∨
            Clean ce c) := by
        obtain ⟨n, i, ci, ce, hn, hrc, hs, -, hin, hlevel⟩ := h
        have hlevel := hlevel (by rw [hin.catches]; exact cons_ne_nil _ _)
        by_cases hlast : strict → Fails g.node entity noCase ∧ rest = fun _ s => some (.failed s noCase)
        · exact ⟨n, i, ci, ce, hn, hrc, hs, hin, hlevel, fun h => .inl (hlast h)⟩
        · obtain ⟨hstrict, hmore⟩ := Classical.not_imp.1 hlast
          subst hstrict
          obtain ⟨ce, hrc, hs, -, hin, hclean⟩ :=
            (hfirst rfl).resolve_right hmore (attempt c entity) s' msg hc1 hr
          refine ⟨0, j, _, ce, .refl _, hrc, hs, hin, ?_, fun _ => .inr hclean⟩
          rw [hclean.1, hclean.2.1]
          exact hc.level
      refine Meets.steps hn (Meets.head (catch_turn hc.error hrc hin hlevel fun h =>
        (hclean h).imp_left And.left) ?_)
      by_cases hkept : LevelKept strict c.level ce.level ∧ ce.levelExit = c.levelExit ∧
          ce.recurs = c.recurs
      · obtain ⟨hl, hexit, hrecurs⟩ := hkept
        rw [hexit, hrecurs]
        exact (hrest _ started (hc.kept hl)).rebase hl
      · -- only an error comes after the last case
        cases strict with
        | false =>
          obtain ⟨hl, hrecurs, hexit⟩ := hin.level rfl
          exact absurd ⟨hl, hexit, hrecurs⟩ hkept
        | true =>
          obtain ⟨⟨nd, hi, hkind⟩, hfails⟩ := (hclean rfl).resolve_right fun h => hkept h
          obtain ⟨c1, hc1⟩ : ∃ c1 : Context ν, c1 = { c with
              toState := { ce.toState with iter := c.iter }, level := ce.level
              levelExit := ce.levelExit, recurs := ce.recurs } := ⟨_, rfl⟩
          have ha : nd.apply { c1 with startRec := false } =
              some { c1 with startRec := false, error := some noCase } := by
            simp only [Node.apply, hkind]
          rw [hfails, ← hc1]
          refine ⟨0, entity, _, _, .refl _, raised_eq_some hi ha rfl, by rw [hc1], rfl, ?_, ?_⟩
          · rw [hc1]
            exact ⟨rfl, suffix_rfl, suffix_rfl, suffix_rfl, hc.startRec.symm, nofun⟩
          · rw [hc1]
            exact fun _ => hlevel

/-! ## Recursions -/

/-- A reference reads the compound it refers to, with the exit level at the level of the
reference. -/
theorem recurs_sim {target ret x next : ℕ} {kx : Option ℕ} (hstrict : strict = true)
    (hm : Points g.node m (.recurs target) (some next))
    (htarget : Points g.node target .compoundStart (some ret))
    (hf : Sim g strict fuel depth ret (some x) f) (hx : Points g.node x .compoundFinish kx) :
    Sim g strict fuel (depth + 1) m (some next) f := by
  intro c started hc
  obtain ⟨nd, hi, hkind, hnext⟩ := hm
  have hrecurs := hc.recurs
  let c1 : Context ν := { c with
    recurs := { elem := some next, level := c.levelExit } :: c.recurs
    levelExit := c.level
    startRec := true }
  have ha : nd.apply { c with startRec := false } = some c1 := by
    simp only [Node.apply, hkind, pushrecurs, hnext]
    rw [if_neg (by omega)]
  have ht1 : Turn g strict ⟨some m, c, started⟩ ⟨some target, c1, started⟩ :=
    turn_of_apply hi ha hc.error (by simp [Node.nextNode, hkind]) (leave_stay (.inl rfl) _)
      (by rw [hkind]; rfl)
  let c2 : Context ν := { c1 with startRec := false, level := c.level + 1 }
  have hc2 : Ready depth c2 :=
    ⟨hc.error, rfl, hc.results, by simp [c2, c1]; omega, by simp [c2, c1]⟩
  have ht2 : Turn g strict ⟨some target, c1, started⟩ ⟨some ret, c2, started⟩ :=
    htarget.turn_of_apply rfl rfl hc.error (leave_stay (.inr hc2.level.ne) _)
  have hin : Inside strict c c2 :=
    ⟨rfl, suffix_rfl, suffix_rfl, suffix_rfl, hc.startRec.symm,
      fun h => absurd (hstrict.symm.trans h) nofun⟩
  refine Meets.head ht1 (Meets.head ht2 ?_)
  rw [← Reading.andThen_done (f c.results c.toState)]
  refine (hf c2 started hc2).andThen hin fun s level hl => ?_
  obtain rfl : level = c.level + 1 := by simpa [LevelKept, hstrict, c2] using hl
  have ha3 : ({ kind := .compoundFinish } : Node κ ν).apply { ({ c2 with
      toState := s, level := c.level + 1 } : Context ν) with startRec := false } =
      some { c2 with toState := s, level := c.level } := by
    simp [Node.apply, poplevel, c2]
  -- the level is the exit level again: the recursion ends
  have hl3 : leave c2.recurs kx { c2 with toState := s, level := c.level } =
      (some next, { c with toState := s }) := by
    simp only [c2, c1, leave, Bool.not_false, Bool.true_and, beq_self_eq_true, if_true]
    rw [hc.startRec]
    refine leave_stay (.inr ?_) _
    exact hc.level.ne
  exact Meets.head (hx.turn_of_apply rfl ha3 hc.error hl3) (.done (.refl _ _))

theorem recurs_crash {target : ℕ} (hm : Points g.node m (.recurs target) k) :
    Sim g strict fuel 0 m k fun _ _ => some .crashed := by
  intro c started hc
  obtain ⟨nd, hi, hkind, -⟩ := hm
  have hrecurs := hc.recurs
  refine ⟨0, _, .refl _, m, rfl, ?_⟩
  simp only [step, hi, Node.apply, hkind, pushrecurs, bind, Option.bind_some]
  rw [if_pos (by omega), Option.bind_none]

/-! ## Unions -/

def inUnion (c : Context ν) (s : State ν) (level : ℤ) (results : List ℕ) (mark : Mark) :
    Context ν :=
  { c with
    toState := s, level, results, marks := mark :: c.marks
    retainMark := (c.iter, false) :: c.retainMark }

/-- What follows an element of a union: `rest` does what `f` reads, wherever the mark got to. -/
def UnionSim (g : Graph κ ν) (strict : Bool) (fuel : ℕ) (k : Option ℕ) (c : Context ν)
    (started : List (Context ν)) (results : List ℕ) (m : ℕ)
    (f : State ν → Option (Reading ν)) : Prop :=
  ∀ s level mark, LevelKept strict c.level level → mark.iter = c.iter.meter →
    mark.bitoffset = c.iter.bitoffset →
    Meets g strict fuel c started k ⟨some m, inUnion c s level results mark, started⟩ (f s)

variable {results : List ℕ}

theorem member_sim {restart : ℕ} {rest : State ν → Option (Reading ν)}
    (hc : Ready depth c) (hsuffix : c.results <:+ results)
    (hf : Sim g strict fuel depth m (some restart) f)
    (hrestart : Points g.node restart .unionRestart (some j))
    (hrest : UnionSim g strict fuel k c started results j rest) :
    UnionSim g strict fuel k c started results m fun s =>
      Reading.andThen (f results s) fun s => orCrash (s.restart c.iter) rest := by
  intro s level mark hl hiter hbit
  obtain ⟨hc1, hin⟩ := hc.inner strict s hsuffix (suffix_cons mark c.marks)
    (suffix_cons (c.iter, false) c.retainMark) hl.le
  refine (hf _ started hc1).andThen hin fun s' level' hl' => ?_
  have hl'' : LevelKept strict c.level level' := hl.trans hl'
  cases hu : s'.union with
  | none =>
    obtain ⟨nd, hi, hkind, -⟩ := hrestart
    simp only [State.restart, hu, Option.map_none, orCrash]
    refine ⟨0, _, .refl _, restart, rfl, ?_⟩
    simp [step, hi, Node.apply, hkind, hu]
  | some u =>
    simp only [State.restart, hu, Option.map_some, orCrash]
    obtain ⟨mark', hiter', hbit', hseek⟩ := seekmark_eq
      (c := inUnion c { s' with union := some (u.reach s'.iter) } level' results mark) rfl
    have ha : ({ kind := .unionRestart } : Node κ ν).apply (inUnion c s' level' results mark) =
        some (inUnion c { s' with union := some (u.reach s'.iter), iter := c.iter } level' results
          mark') := by
      have : (inUnion c s' level' results mark).union = some u := hu
      simp only [Node.apply, this, bind, Option.bind_some]
      refine hseek.trans ?_
      rw [hiter, hbit]
      rfl
    exact Meets.head (hrestart.turn rfl hc.startRec ha hc.error (hc.level.trans_le hl''.le).ne)
      (hrest _ level' mark' hl'' (hiter'.trans hiter) (hbit'.trans hbit))

theorem finishUnion_sim (hc : Ready depth c)
    (hres : if named.isSome then ∃ new, results = new :: c.results else results = c.results)
    (hm : Points g.node m (.unionFinish named.isSome) k) :
    UnionSim g strict fuel k c started results m fun s =>
      orCrash s.finishUnion fun s => some (.done s) := by
  intro s level mark hl _ _
  obtain ⟨res, rest, hr, -⟩ := hc.result
  have ha : ({ kind := .unionFinish named.isSome } : Node κ ν).apply
      (inUnion c s level results mark) = s.union.bind fun u => some { c with
        toState := { s with
          iter := ⟨s.iter.meter + (u.meter - u.start), u.bitoffset⟩, union := none }
        level } := by
    split_ifs at hres with hn
    · obtain ⟨new, rfl⟩ := hres
      simp [Node.apply, hn, inUnion, Context.result, pop, popmark, unmark]
    · subst hres
      simp [Node.apply, hn, inUnion, Context.result, hr, popmark, unmark]
  cases hu : s.union with
  | none =>
    obtain ⟨nd, hi, hkind, -⟩ := hm
    have hs : (inUnion c s level results mark).startRec = false := hc.startRec
    simp only [State.finishUnion, hu, Option.map_none, orCrash]
    refine ⟨0, _, .refl _, m, rfl, ?_⟩
    have hplain : nd.kind.plain := by rw [hkind]; rfl
    rw [hu, Option.bind_none] at ha
    simp only [step, hi, bind, Option.bind_some]
    rw [startRec_eta hs, apply_plain hplain, hkind, ha, Option.bind_none]
  | some u =>
    simp only [State.finishUnion, hu, Option.map_some, orCrash]
    rw [hu, Option.bind_some] at ha
    exact Meets.head (hm.turn rfl hc.startRec ha hc.error (hc.level.trans_le hl.le).ne) (.done hl)

/-- The result of a union, from how its elements and its end are read. -/
def readUnion (f : List ℕ → Position → State ν → Option (Reading ν)) (named : Option String)
    (results : List ℕ) (s : State ν) : Option (Reading ν) :=
  let start := s.iter
  let s := { s with union := some (.new s.iter) }
  if named.isSome then f (s.newResult.2 :: results) start s.newResult.1
  else f results start s

theorem union_sim {F : List ℕ → Position → State ν → Option (Reading ν)}
    (hm : Points g.node m (.unionStart named) (some j))
    (hf : ∀ c started results, Ready depth c → c.results <:+ results →
      (if named.isSome then ∃ new, results = new :: c.results else results = c.results) →
      UnionSim g strict fuel k c started results j (F results c.iter)) :
    Sim g strict fuel depth m k (readUnion F named) := by
  intro c started hc
  obtain ⟨res, rest, hres, hr⟩ := hc.result
  cases hn : named.isSome with
  | false =>
    have h := hf c started c.results hc suffix_rfl (by simp [hn])
      { c.toState with union := some (.new c.iter) } c.level (.new c.iter) (.refl _ _) rfl rfl
    have ha : ({ kind := .unionStart named } : Node κ ν).apply c = some (inUnion c
        { c.toState with union := some (.new c.iter) } c.level c.results (.new c.iter)) := by
      simp [Node.apply, hn, inUnion, mark, pushmark]
    simp only [readUnion, hn]
    exact Meets.head (hm.turn rfl hc.startRec ha hc.error hc.level.ne) h
  | true =>
    have h := hf c started (c.store.new.2 :: c.results) hc (suffix_cons _ _) (by simp [hn])
      { c.toState with store := c.store.new.1, union := some (.new c.iter) } c.level (.new c.iter)
      (.refl _ _) rfl rfl
    have ha : ({ kind := .unionStart named } : Node κ ν).apply c = some (inUnion c
        { c.toState with store := c.store.new.1, union := some (.new c.iter) } c.level
        (c.store.new.2 :: c.results) (.new c.iter)) := by
      simp [Node.apply, hn, inUnion, mark, pushmark, Context.push, Context.result,
        hres]
    simp only [readUnion, hn]
    exact Meets.head (hm.turn rfl hc.startRec ha hc.error hc.level.ne) h

end Sim

/-! ## Entities -/

section Entities

variable {g : Graph κ ν} {strict readonly : Bool} {fuel depth : ℕ} {again : Reader κ ν}

/-- What the simulation asks of an entity: under `strict` that the cases of a try but the last are
leaf parsers, otherwise that it is no reference. -/
def Entity.fits : Bool → Entity κ ν → Bool
  | true, entity => entity.triesLeaves
  | false, entity => !entity.isRecurs

/-- The nodes and the entities of the compounds around. -/
def EnvOk (g : Graph κ ν) (strict readonly : Bool) : List ℕ → List (Enclosing κ ν) → Prop
  | [], [] => True
  | m :: env, (entity, named) :: envs =>
    (entity.isCompound ∧ entity.all (Entity.fits strict) ∧
      ∃ k, entity.Code readonly g.node named env m k) ∧ EnvOk g strict readonly env envs
  | _, _ => False

omit [DecidableEq κ] in
theorem leavesButLast_rest {named : Option String} {entity : Entity κ ν} {rest : Entities κ ν}
    (h : (Entities.cons named entity rest).leavesButLast = true) : rest.leavesButLast = true := by
  cases rest with
  | nil => rfl
  | cons =>
    cases entity with
    | primitive => exact h
    | _ => cases h

omit [DecidableEq κ] in
theorem EnvOk.get {m : ℕ} :
    ∀ (up : ℕ) (env : List ℕ) (envs : List (Enclosing κ ν)), EnvOk g strict readonly env envs →
      env[up]? = some m →
      ∃ entity named k, envs[up]? = some (entity, named) ∧ entity.isCompound ∧
        entity.all (Entity.fits strict) ∧ entity.Code readonly g.node named (env.drop (up + 1)) m k ∧
        EnvOk g strict readonly (env.drop (up + 1)) (envs.drop (up + 1))
  | _, [], _, _, hm => by simp at hm
  | _, _ :: _, [], h, _ => h.elim
  | 0, _ :: env, (entity, named) :: envs, ⟨⟨hc, hn, k, hk⟩, henv⟩, hm => by
    obtain rfl := Option.some.inj hm
    exact ⟨entity, named, k, rfl, hc, hn, hk, henv⟩
  | up + 1, _ :: env, _ :: envs, ⟨_, henv⟩, hm => EnvOk.get up env envs henv hm

def Entity.inner (entity : Entity κ ν) (named : Option String) (envs : List (Enclosing κ ν)) :
    List (Enclosing κ ν) :=
  if entity.isCompound then (entity, named) :: envs else envs

/-- How references are read: from a depth of zero not at all, otherwise as their compound with one
recursion less. -/
def AgainOk (g : Graph κ ν) (strict readonly : Bool) (fuel : ℕ) : ℕ → Reader κ ν → Prop
  | 0, again => again = fun _ _ _ _ _ => some .crashed
  | depth + 1, again => ∀ (entity : Entity κ ν) (named : Option String) (env : List ℕ)
      (envs : List (Enclosing κ ν)) (m k : ℕ), entity.all (Entity.fits strict) →
      EnvOk g strict readonly env (entity.inner named envs) →
      entity.Body readonly g.node named env m (some k) →
      Sim g strict fuel depth m (some k) (again entity named envs)

variable {entity : Entity κ ν} {named : Option String} {env : List ℕ} {envs : List (Enclosing κ ν)}

theorem code_sim {m : ℕ} {k : ℕ} {f : List ℕ → State ν → Option (Reading ν)}
    (hbody : ∀ env m k, EnvOk g strict readonly env (entity.inner named envs) →
      entity.Body readonly g.node named env m (some k) → Sim g strict fuel depth m (some k) f)
    (hn : entity.all (Entity.fits strict)) (henv : EnvOk g strict readonly env envs)
    (h : Wrapped g.node entity.isCompound (entity.Body readonly g.node named) env m (some k)) :
    Sim g strict fuel depth m (some k) f := by
  have hcode := h
  unfold Wrapped at h
  split_ifs at h with hc
  · obtain ⟨ret, x, hm, hret, hx⟩ := h
    refine wrapped_sim hm (hbody (m :: env) ret x ?_ hret) hx
    rw [Entity.inner, if_pos hc]
    exact ⟨⟨hc, hn, some k, hcode⟩, henv⟩
  · refine hbody env m k ?_ h
    rwa [Entity.inner, if_neg hc]

theorem again_sim (hstrict : strict = true) (hagain : AgainOk g strict readonly fuel depth again)
    {target m next : ℕ} {kx : Option ℕ} (hc : entity.isCompound)
    (hn : entity.all (Entity.fits strict)) (henv : EnvOk g strict readonly env envs)
    (hcode : entity.Code readonly g.node named env target kx)
    (hm : Points g.node m (.recurs target) (some next)) :
    Sim g strict fuel depth m (some next) (again entity named envs) := by
  cases depth with
  | zero =>
    rw [show again = fun _ _ _ _ _ => some .crashed from hagain]
    exact recurs_crash hm
  | succ depth =>
    have h := hcode
    unfold Entity.Code Wrapped at h
    rw [if_pos hc] at h
    obtain ⟨ret, x, htarget, hret, hx⟩ := h
    refine recurs_sim hstrict hm htarget (hagain entity named _ envs ret x hn ?_ hret) hx
    rw [Entity.inner, if_pos hc]
    exact ⟨⟨hc, hn, kx, hcode⟩, henv⟩

theorem Reading.andThen_assoc (r : Option (Reading ν)) (f f' : State ν → Option (Reading ν)) :
    Reading.andThen (Reading.andThen r f) f' =
      Reading.andThen r fun s => Reading.andThen (f s) f' := by
  rcases r with _ | _ | ⟨_, _⟩ | _ <;> rfl

theorem andThen_orCrash (s : Option (State ν)) (f f' : State ν → Option (Reading ν)) :
    Reading.andThen (orCrash s f) f' = orCrash s fun s => Reading.andThen (f s) f' := by
  cases s <;> rfl

variable (hagain : strict → AgainOk g strict readonly fuel depth again)

include hagain

-- the recursive calls do not count as uses
set_option linter.unusedSectionVars false

mutual

/-- **The code of an entity simulates its reading.** -/
theorem Entity.body_sim :
    ∀ (entity : Entity κ ν) (named : Option String) (envs : List (Enclosing κ ν))
      (env : List ℕ) (m k : ℕ), entity.all (Entity.fits strict) →
      EnvOk g strict readonly env (entity.inner named envs) →
      entity.Body readonly g.node named env m (some k) →
      Sim g strict fuel depth m (some k) (entity.readWith fuel again named envs)
  | .primitive _, _, _, _, _, _, _, _, h => leaf_sim h
  | .record entities, named, envs, env, _, _, hn, henv,
      ⟨_, j, pop, _, hm, hstart, hj, hpop, hrelease⟩ => by
    have hchain := Entities.chain_sim entities ((.record entities, named) :: envs) env j pop
      (Bool.and_eq_true_iff.1 hn).2 henv hj
    cases named <;> exact retain_sim hm (fields_sim hstart hchain hpop) hrelease
  | .sequence entities, named, envs, env, _, _, hn, henv, ⟨j, pop, hm, hj, hpop⟩ => by
    have hchain := Entities.chain_sim entities ((.sequence entities, named) :: envs) env j pop
      (Bool.and_eq_true_iff.1 hn).2 henv hj
    cases named <;> exact fields_sim hm hchain hpop
  | .union entities, named, envs, env, _, _, hn, henv, ⟨j, finish, hm, hj, hfinish⟩ => by
    have hunion : Sim g strict fuel depth _ _ (readUnion (fun results start s => Reading.andThen
        (entities.readMembers fuel again ((.union entities, named) :: envs) results start s)
        fun s => orCrash s.finishUnion fun s => some (.done s)) named) :=
      union_sim hm fun c started results hc hsuffix hres =>
        Entities.members_sim entities ((.union entities, named) :: envs) env j finish c
          started results hc hsuffix (Bool.and_eq_true_iff.1 hn).2 henv
          (finishUnion_sim hc hres hfinish) hj
    intro c started hc
    have h := hunion c started hc
    simp only [readUnion] at h
    simp only [Entity.readWith]
    split_ifs at h ⊢ <;> exact h
  | .try cases, named, envs, env, m, _, hn, henv, ⟨finish, hcases, _, hfinish⟩ => by
    obtain ⟨hfits, hn⟩ := Bool.and_eq_true_iff.1 hn
    refine Entities.tried_sim cases ((.try cases, named) :: envs) env named finish m hn
      (fun hstrict => ?_) henv hfinish hcases
    rwa [hstrict] at hfits
  | .branch cases default selector, named, envs, env, m, k, hn, henv,
      ⟨table, j, hm, hcases, hdefault⟩ => by
    intro c started hc
    obtain ⟨hn, hn'⟩ := Bool.and_eq_true_iff.1 (Bool.and_eq_true_iff.1 hn).2
    refine Meets.head (hm.turn hc) ?_
    exact Cases.table_sim cases ((.branch cases default selector, named) :: envs) env named
      table k c started _ _ j hn henv hc
      (Default.leads_sim default ((.branch cases default selector, named) :: envs) env j k c
        started hn' henv hc hdefault) hcases
  | .array inner entity more, named, envs, env, _, _, hn, henv,
      ⟨_, _, _, _, _, hm, hloop, hpush, he, hpop, hfinish⟩ =>
    have hn := (Bool.and_eq_true_iff.1 hn).2
    array_sim hm hloop hpush (code_sim (fun env m k =>
      Entity.body_sim entity inner ((.array inner entity more, named) :: envs) env m k hn)
      hn henv he) hpop hfinish
  | .recurs up, _, envs, env, m, k, hn, henv, ⟨target, ht, hm⟩ => by
    have hstrict : strict = true := by
      cases strict with
      | false => cases hn
      | true => rfl
    obtain ⟨entity, named, kx, henvs, hc, hfits, hcode, henv'⟩ := EnvOk.get up env envs henv ht
    rw [readWith_recurs henvs]
    exact again_sim hstrict (hagain hstrict) hc hfits henv' hcode hm

theorem Entities.chain_sim :
    ∀ (entities : Entities κ ν) (envs : List (Enclosing κ ν)) (env : List ℕ) (m k : ℕ),
      entities.all (Entity.fits strict) → EnvOk g strict readonly env envs →
      entities.Chain readonly g.node env m k →
      Sim g strict fuel depth m (some k) (entities.readChain fuel again envs)
  | .nil, _, _, _, _, _, _, h => fun _ _ _ => h ▸ .done (.refl _ _)
  | .cons named entity rest, envs, env, m, k, hn, henv, ⟨j, he, hrest⟩ => by
    obtain ⟨hn, hn'⟩ := Bool.and_eq_true_iff.1 hn
    have hsim := code_sim (fun env m k =>
      Entity.body_sim entity named envs env m k hn) hn henv he
    have hsim' := Entities.chain_sim rest envs env j k hn' henv hrest
    intro c started hc
    exact (hsim c started hc).andThen (.refl _ _) fun s level hl =>
      .rebase hl (hsim' _ started (hc.kept hl))

theorem Entities.members_sim :
    ∀ (entities : Entities κ ν) (envs : List (Enclosing κ ν)) (env : List ℕ) (m finish : ℕ)
      {k : Option ℕ} {f : State ν → Option (Reading ν)} (c : Context ν)
      (started : List (Context ν)) (results : List ℕ), Ready depth c →
      c.results <:+ results → entities.all (Entity.fits strict) → EnvOk g strict readonly env envs →
      UnionSim g strict fuel k c started results finish f →
      entities.Members readonly g.node env m finish →
      UnionSim g strict fuel k c started results m fun s =>
        Reading.andThen (entities.readMembers fuel again envs results c.iter s) f
  | .nil, _, _, _, _, _, _, _, _, _, _, _, _, _, hf, h => h ▸ hf
  | .cons named entity rest, envs, env, m, finish, _, f, c, started, results, hc, hsuffix, hn,
      henv, hf, ⟨restart, j, he, hrestart, hrest⟩ => by
    obtain ⟨hn, hn'⟩ := Bool.and_eq_true_iff.1 hn
    have hsim := code_sim (fun env m k =>
      Entity.body_sim entity named envs env m k hn) hn henv he
    have hsim' := Entities.members_sim rest envs env j finish c started results hc hsuffix
      hn' henv hf hrest
    have h := member_sim hc hsuffix hsim hrestart hsim'
    intro s level mark
    simp only [Entities.readMembers, Reading.andThen_assoc, andThen_orCrash]
    exact h s level mark

theorem Entities.tried_sim :
    ∀ (cases : Entities κ ν) (envs : List (Enclosing κ ν)) (env : List ℕ) (named : Option String)
      (finish m : ℕ) {k : Option ℕ}, cases.all (Entity.fits strict) →
      (strict = true → cases.leavesButLast) → EnvOk g strict readonly env envs → Points g.node finish (.tryFinish named) k →
      cases.Tried readonly g.node env named finish m →
      Sim g strict fuel depth m k (cases.readTry fuel again envs named)
  | .nil, _, _, _, _, _, _, _, _, _, _, h => fails_sim h
  | .cons named' entity rest, envs, env, named, finish, _, _, hn, hleaves, henv, hfinish,
      ⟨c, j, hm, he, hrest⟩ => by
    obtain ⟨hn, hn'⟩ := Bool.and_eq_true_iff.1 hn
    have hsim := code_sim (fun env m k =>
      Entity.body_sim entity named' envs env m k hn) hn henv he
    have hsim' := Entities.tried_sim rest envs env named finish c hn'
      (fun hstrict => leavesButLast_rest (hleaves hstrict)) henv hfinish hrest
    refine attempt_sim hm hsim hsim' hfinish fun hstrict => ?_
    cases rest with
    | nil => exact .inr ⟨hrest, rfl⟩
    | cons named'' entity' rest' =>
      cases entity with
      | primitive p =>
        exact .inl fun c s' msg hc hread =>
          leaf_raises he hc.startRec hc.results (Option.some.inj hread)
      | _ => cases hleaves hstrict

theorem Cases.table_sim :
    ∀ (cases : Cases κ ν) (envs : List (Enclosing κ ν)) (env : List ℕ) (named : Option String)
      (table : List (Key κ × ℕ)) (k : ℕ) (c : Context ν) (started : List (Context ν))
      (selected : Option (Key κ)) (default : State ν → Option (Reading ν)) (j : Option ℕ),
      cases.all (Entity.fits strict) → EnvOk g strict readonly env envs → Ready depth c →
      Meets g strict fuel c started (some k) ⟨j, c, started⟩ (default c.toState) →
      cases.Table readonly g.node env named table (some k) →
      Meets g strict fuel c started (some k)
        ⟨((table.find? fun p => some p.1 = selected).map Prod.snd).or j, c, started⟩
        (cases.readCases fuel again envs named c.results selected default c.toState)
  | .nil, _, _, _, _, _, _, _, _, _, _, _, _, _, hd, h => by
    obtain rfl : _ = [] := h
    exact hd
  | .cons key named' entity rest, envs, env, named, _, k, c, started, selected, default, j, hn,
      henv, hc, hd, ⟨m, table, htable, he, hrest⟩ => by
    obtain ⟨hn, hn'⟩ := Bool.and_eq_true_iff.1 hn
    subst htable
    by_cases hkey : some key = selected
    · have hsim := code_sim (fun env m k =>
        Entity.body_sim entity (named.or named') envs env m k hn) hn henv he
      simpa [Cases.readCases, hkey] using hsim c started hc
    · have h := Cases.table_sim rest envs env named table k c started selected default j
        hn' henv hc hd hrest
      simpa [Cases.readCases, hkey] using h

theorem Default.leads_sim :
    ∀ (default : Default κ ν) (envs : List (Enclosing κ ν)) (env : List ℕ) (j : Option ℕ) (k : ℕ)
      (c : Context ν) (started : List (Context ν)), default.all (Entity.fits strict) →
      EnvOk g strict readonly env envs → Ready depth c → default.Leads readonly g.node env j (some k) →
      Meets g strict fuel c started (some k) ⟨j, c, started⟩
        (default.readDefault fuel again envs c.results c.toState)
  | .error, _, _, _, _, c, started, _, _, hc, ⟨m, hj, nd, hi, hkind, _⟩ => by
    subst hj
    exact fails_sim ⟨nd, hi, hkind⟩ c started hc
  | .continue, _, _, _, _, _, _, _, _, _, h => by
    obtain rfl : _ = some _ := h
    exact .done (.refl _ _)
  | .entity named entity, envs, _, _, _, c, started, hn, henv, hc, ⟨m, hj, he⟩ => by
    subst hj
    exact code_sim (fun env m k => Entity.body_sim entity named envs env m k hn) hn henv he c
      started hc

end

omit hagain in
theorem Entity.read_sim : ∀ (depth : ℕ) (entity : Entity κ ν) (named : Option String)
    (envs : List (Enclosing κ ν)) (env : List ℕ) (m k : ℕ), entity.all (Entity.fits strict) →
    EnvOk g strict readonly env (entity.inner named envs) →
    entity.Body readonly g.node named env m (some k) →
    Sim g strict fuel depth m (some k) (entity.read fuel depth named envs)
  | 0, entity, named, envs, env, m, k, hn, henv, h => by
    have hagain : strict → AgainOk g strict readonly fuel 0 fun _ _ _ _ _ => some .crashed :=
      fun _ => rfl
    exact entity.body_sim hagain named envs env m k hn henv h
  | depth + 1, entity, named, envs, env, m, k, hn, henv, h => by
    refine entity.body_sim (fun hstrict => ?_) named envs env m k hn henv h
    intro entity named env envs m k hn henv h
    exact Entity.read_sim depth entity named envs env m k hn henv h

end Entities

end Haka.Grammar
