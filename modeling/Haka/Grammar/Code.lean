import Haka.Grammar.Graph

/-!
# The graph of an entity

`Entity.Code` says what the nodes of a compiled entity look like: from which node it is entered and
where it goes on when it is done. It is about the entity and the nodes only, not about how the
compilation makes them.

Three facts carry the proof that the compilation emits code: code with a continuation stays when
links are added, its continuation can be reached from its entry, and code without a continuation
gets one from an `add` that can reach its entry. `Linkable` has the three, and is closed under what
code is made of.
-/

namespace Haka.Grammar

variable {κ ν : Type}

/-- `more` as the selector of the loop's branch. -/
def More.selector (more : More ν) : Scope ν → Option (Key κ) := fun s => some (.bool (more.test s))

/-- Is the entity's class below `Compound`? A reference compiles to a single node. -/
def Entity.isCompound : Entity κ ν → Bool
  | .primitive _ | .recurs _ => false
  | _ => true

/-! ## Single nodes -/

section Nodes

variable (N : ℕ → Option (Node κ ν))

/-- The node `i` is of this kind and has this next node. -/
def Points (i : ℕ) (kind : NodeKind κ ν) (k : Option ℕ) : Prop :=
  ∃ nd, N i = some nd ∧ nd.kind = kind ∧ nd.next = k

/-- The node `i` is a branch with these cases and this default. -/
def Branches (i : ℕ) (selector : Scope ν → Option (Key κ)) (cases : List (Key κ × ℕ))
    (k : Option ℕ) : Prop :=
  ∃ nd, N i = some nd ∧ nd.kind = .branch selector ∧ nd.cases = cases ∧ nd.next = k

/-- The node `i` starts a case of a try and is caught at `c`. -/
def Attempts (i : ℕ) (named : Option String) (c k : ℕ) : Prop :=
  ∃ nd, N i = some nd ∧ nd.kind = .tryStart named ∧ nd.catchEntity = some c ∧ nd.next = some k

/-- The node `i` is an error node. -/
def Fails (i : ℕ) (msg : String) : Prop := ∃ nd, N i = some nd ∧ nd.kind = .error msg

/-- The nodes around a compound's own: the compound is entered at its `CompoundStart`, which its
inside can refer to, and left at its `CompoundFinish`. -/
def Wrapped (compound : Bool) (body : List ℕ → ℕ → Option ℕ → Prop) (env : List ℕ) (m : ℕ)
    (k : Option ℕ) : Prop :=
  if compound then
    ∃ ret x, Points N m .compoundStart (some ret) ∧ body (m :: env) ret (some x) ∧
      Points N x .compoundFinish k
  else body env m k

end Nodes

/-! ## Entities -/

section Entities

variable (readonly : Bool) (N : ℕ → Option (Node κ ν))

mutual

/-- The nodes `do_compile` makes for the entity, entered at `m` and continued at `k`; `env` are the
nodes of the compounds around. -/
def Entity.Body : Entity κ ν → Option String → List ℕ → ℕ → Option ℕ → Prop
  | .primitive p, named, _, m, k => Points N m (.primitive p named) k
  | .record entities, named, env, m, k =>
    ∃ start j pop release, Points N m (.retain readonly) (some start) ∧
      Points N start (.recordStart named) (some j) ∧ entities.Chain env j pop ∧
      Points N pop (.recordFinish named.isSome) (some release) ∧ Points N release .release k
  | .sequence entities, named, env, m, k =>
    ∃ j pop, Points N m (.recordStart named) (some j) ∧ entities.Chain env j pop ∧
      Points N pop (.recordFinish named.isSome) k
  | .union entities, named, env, m, k =>
    ∃ j finish, Points N m (.unionStart named) (some j) ∧ entities.Members env j finish ∧
      Points N finish (.unionFinish named.isSome) k
  | .try cases, named, env, m, k =>
    ∃ finish, cases.Tried env named finish m ∧ cases ≠ .nil ∧
      Points N finish (.tryFinish named) k
  | .branch cases default selector, named, env, m, k =>
    ∃ table j, Branches N m selector table j ∧ cases.Table env named table k ∧
      default.Leads env j k
  | .array inner entity more, named, env, m, k =>
    ∃ loop push n pop finish, Points N m (.arrayStart named) (some loop) ∧
      Branches N loop more.selector [(.bool true, push)] (some finish) ∧
      Points N push .arrayPush (some n) ∧
      Wrapped N entity.isCompound (entity.Body inner) env n (some pop) ∧
      Points N pop .arrayPop (some loop) ∧ Points N finish .resultPop k
  | .recurs up, _, env, m, k => ∃ target, env[up]? = some target ∧ Points N m (.recurs target) k

def Entities.Chain : Entities κ ν → List ℕ → ℕ → ℕ → Prop
  | .nil, _, m, k => m = k
  | .cons named entity rest, env, m, k =>
    ∃ j, Wrapped N entity.isCompound (entity.Body named) env m (some j) ∧ rest.Chain env j k

/-- The elements of a union, with a restart after each. -/
def Entities.Members : Entities κ ν → List ℕ → ℕ → ℕ → Prop
  | .nil, _, m, k => m = k
  | .cons named entity rest, env, m, k =>
    ∃ restart j, Wrapped N entity.isCompound (entity.Body named) env m (some restart) ∧
      Points N restart .unionRestart (some j) ∧ rest.Members env j k

/-- The cases of a try: each is caught at the next one, the last one at an error. -/
def Entities.Tried : Entities κ ν → List ℕ → Option String → ℕ → ℕ → Prop
  | .nil, _, _, _, m => Fails N m "cannot find a successful try case"
  | .cons named' entity rest, env, named, finish, m =>
    ∃ c j, Attempts N m named c j ∧
      Wrapped N entity.isCompound (entity.Body named') env j (some finish) ∧
      rest.Tried env named finish c

/-- The table of a branch; a named branch gives its name to its cases. -/
def Cases.Table : Cases κ ν → List ℕ → Option String → List (Key κ × ℕ) → Option ℕ → Prop
  | .nil, _, _, table, _ => table = []
  | .cons key named' entity rest, env, named, table, k =>
    ∃ m table', table = (key, m) :: table' ∧
      Wrapped N entity.isCompound (entity.Body (named.or named')) env m k ∧
      rest.Table env named table' k

/-- The default of a branch. -/
def Default.Leads : Default κ ν → List ℕ → Option ℕ → Option ℕ → Prop
  | .error, _, j, k => ∃ m, j = some m ∧ Points N m (.error "invalid case") k
  | .continue, _, j, k => j = k
  | .entity named entity, env, j, k =>
    ∃ m, j = some m ∧ Wrapped N entity.isCompound (entity.Body named) env m k

end

def Entity.Code (entity : Entity κ ν) (named : Option String) (env : List ℕ) (m : ℕ)
    (k : Option ℕ) : Prop :=
  Wrapped N entity.isCompound (entity.Body readonly N named) env m k

end Entities

/-! ## What can be linked -/

section Linkable

variable {N N' : ℕ → Option (Node κ ν)} {i m k : ℕ} {nd : Node κ ν}

theorem reach_next (hi : N i = some nd) (hnext : nd.next = some k) : Reach N i k := by
  refine Relation.ReflTransGen.single ?_
  rw [nextsOf, hi, Option.elim_some, Node.nexts, hnext]
  simp

theorem Branches.reach_case {selector : Scope ν → Option (Key κ)} {cases : List (Key κ × ℕ)}
    {j : Option ℕ} (h : Branches N i selector cases j) {key : Key κ} (hm : (key, m) ∈ cases) :
    Reach N i m := by
  obtain ⟨nd, hi, -, rfl, -⟩ := h
  refine Relation.ReflTransGen.single ?_
  rw [nextsOf, hi, Option.elim_some, Node.nexts, List.mem_append]
  exact .inl (List.mem_map_of_mem hm)

/-- `N'` is `N` with the dangling nodes that can be reached from `root` continued at `k`. -/
structure Links (N N' : ℕ → Option (Node κ ν)) (root : ℕ) (k : Option ℕ) : Prop where
  grows : Grows N N'
  fills : ∀ y nd nd', Reach N root y → N y = some nd → nd.next = none → N' y = some nd' →
    nd'.next = k

theorem Links.of_some (h : ∀ i nd, N i = some nd → N' i = some nd) (root : ℕ) :
    Links N N' root none where
  grows := .of_some h
  fills y nd nd' _ hy hnext hy' := by
    rw [h y nd hy, Option.some.injEq] at hy'
    rw [← hy', hnext]

theorem Links.of_reach {k : Option ℕ} (hl : Links N N' i k) (hr : Reach N i m) : Links N N' m k :=
  ⟨hl.grows, fun y nd nd' hy => hl.fills y nd nd' (hr.trans hy)⟩

/-- What stays when links are added, and leads from `a` to `b`. -/
structure Stable (a b : ℕ) (Q : (ℕ → Option (Node κ ν)) → Prop) : Prop where
  mono : ∀ {N N'}, Grows N N' → Q N → Q N'
  reach : ∀ {N}, Q N → Reach N a b

/-- What a continuation can be given to: `Q N k` says that the nodes `N` have something that is
entered at `root` and continued at `k`. -/
structure Linkable (root : ℕ) (Q : (ℕ → Option (Node κ ν)) → Option ℕ → Prop) : Prop where
  mono : ∀ {N N' k}, Grows N N' → Q N (some k) → Q N' (some k)
  reach : ∀ {N k}, Q N (some k) → Reach N root k
  link : ∀ {N N' r k}, Links N N' r k → Reach N r root → Q N none → Q N' k

variable {a b c d : ℕ} {β : Type} {Q R : (ℕ → Option (Node κ ν)) → Prop}
  {S : (ℕ → Option (Node κ ν)) → Option ℕ → Prop}

namespace Stable

theorem const (p : Prop) : Stable a a fun _ : ℕ → Option (Node κ ν) => p :=
  ⟨fun _ h => h, fun _ => .refl⟩

theorem seq (hQ : Stable a b Q) (hR : Stable b c R) : Stable a c fun N => Q N ∧ R N :=
  ⟨fun hg h => ⟨hQ.mono hg h.1, hR.mono hg h.2⟩, fun h => (hQ.reach h.1).trans (hR.reach h.2)⟩

theorem beside (hQ : Stable a b Q) (hR : Stable c d R) : Stable a b fun N => Q N ∧ R N :=
  ⟨fun hg h => ⟨hQ.mono hg h.1, hR.mono hg h.2⟩, fun h => hQ.reach h.1⟩

theorem ex {Q : β → (ℕ → Option (Node κ ν)) → Prop} (h : ∀ x, Stable a b (Q x)) :
    Stable a b fun N => ∃ x, Q x N :=
  ⟨fun hg ⟨x, hx⟩ => ⟨x, (h x).mono hg hx⟩, fun ⟨x, hx⟩ => (h x).reach hx⟩

end Stable

namespace Linkable

theorem stable (hS : Linkable a S) (k : ℕ) : Stable a k fun N => S N (some k) :=
  ⟨hS.mono, hS.reach⟩

theorem after (hQ : Stable a b Q) (hS : Linkable b S) : Linkable a fun N k => Q N ∧ S N k where
  mono hg h := ⟨hQ.mono hg h.1, hS.mono hg h.2⟩
  reach h := (hQ.reach h.1).trans (hS.reach h.2)
  link hl hr h := ⟨hQ.mono hl.grows h.1, hS.link hl (hr.trans (hQ.reach h.1)) h.2⟩

theorem beside (hQ : Stable a b Q) (hS : Linkable c S) : Linkable c fun N k => Q N ∧ S N k where
  mono hg h := ⟨hQ.mono hg h.1, hS.mono hg h.2⟩
  reach h := hS.reach h.2
  link hl hr h := ⟨hQ.mono hl.grows h.1, hS.link hl hr h.2⟩

theorem ex {S : β → (ℕ → Option (Node κ ν)) → Option ℕ → Prop} (h : ∀ x, Linkable a (S x)) :
    Linkable a fun N k => ∃ x, S x N k where
  mono hg := fun ⟨x, hx⟩ => ⟨x, (h x).mono hg hx⟩
  reach := fun ⟨x, hx⟩ => (h x).reach hx
  link hl hr := fun ⟨x, hx⟩ => ⟨x, (h x).link hl hr hx⟩

theorem entered {S : ℕ → (ℕ → Option (Node κ ν)) → Option ℕ → Prop} (h : Linkable a (S a)) :
    Linkable a fun N k => ∃ m, some a = some m ∧ S m N k where
  mono hg := fun ⟨_, rfl, hm⟩ => ⟨a, rfl, h.mono hg hm⟩
  reach := fun ⟨_, rfl, hm⟩ => h.reach hm
  link hl hr := fun ⟨_, rfl, hm⟩ => ⟨a, rfl, h.link hl hr hm⟩

end Linkable

theorem linkable_points (i : ℕ) (kind : NodeKind κ ν) :
    Linkable i fun N k => Points N i kind k where
  mono hg := fun ⟨nd, hi, hkind, hnext⟩ => by
    obtain ⟨nd', hi', hnd⟩ := hg i nd hi
    exact ⟨nd', hi', hnd.kind.trans hkind, hnd.next _ hnext⟩
  reach := fun ⟨nd, hi, _, hnext⟩ => reach_next hi hnext
  link hl hr := fun ⟨nd, hi, hkind, hnext⟩ => by
    obtain ⟨nd', hi', hnd⟩ := hl.grows i nd hi
    exact ⟨nd', hi', hnd.kind.trans hkind, hl.fills i nd nd' hr hi hnext hi'⟩

theorem linkable_branches (i : ℕ) (selector : Scope ν → Option (Key κ))
    (cases : List (Key κ × ℕ)) : Linkable i fun N k => Branches N i selector cases k where
  mono hg := fun ⟨nd, hi, hkind, hcases, hnext⟩ => by
    obtain ⟨nd', hi', hnd⟩ := hg i nd hi
    exact ⟨nd', hi', hnd.kind.trans hkind, hnd.cases.trans hcases, hnd.next _ hnext⟩
  reach := fun ⟨nd, hi, _, _, hnext⟩ => reach_next hi hnext
  link hl hr := fun ⟨nd, hi, hkind, hcases, hnext⟩ => by
    obtain ⟨nd', hi', hnd⟩ := hl.grows i nd hi
    exact ⟨nd', hi', hnd.kind.trans hkind, hnd.cases.trans hcases,
      hl.fills i nd nd' hr hi hnext hi'⟩

theorem stable_points (i : ℕ) (kind : NodeKind κ ν) (k : ℕ) :
    Stable i k fun N => Points N i kind (some k) := (linkable_points i kind).stable k

theorem stable_attempts (i : ℕ) (named : Option String) (c k : ℕ) :
    Stable i k fun N : ℕ → Option (Node κ ν) => Attempts N i named c k where
  mono hg := fun ⟨nd, hi, hkind, hcatch, hnext⟩ => by
    obtain ⟨nd', hi', hnd⟩ := hg i nd hi
    exact ⟨nd', hi', hnd.kind.trans hkind, hnd.catchEntity c hcatch, hnd.next k hnext⟩
  reach := fun ⟨nd, hi, _, _, hnext⟩ => reach_next hi hnext

theorem stable_fails (i : ℕ) (msg : String) :
    Stable i i fun N : ℕ → Option (Node κ ν) => Fails N i msg where
  mono hg := fun ⟨nd, hi, hkind⟩ => by
    obtain ⟨nd', hi', hnd⟩ := hg i nd hi
    exact ⟨nd', hi', hnd.kind.trans hkind⟩
  reach _ := .refl

theorem Wrapped.linkable (compound : Bool)
    {body : (ℕ → Option (Node κ ν)) → List ℕ → ℕ → Option ℕ → Prop}
    (hbody : ∀ env m, Linkable m fun N k => body N env m k) (env : List ℕ) (m : ℕ) :
    Linkable m fun N k => Wrapped N compound (body N) env m k := by
  cases compound with
  | true =>
    exact .ex fun ret => .ex fun x =>
      .after (stable_points m _ ret) <| .after ((hbody _ ret).stable x) <| linkable_points x _
  | false => exact hbody env m

/-! ## Entities can be linked -/

variable (readonly : Bool)

variable {readonly} {default : Default κ ν} {env : List ℕ} {j : Option ℕ}

theorem Default.Leads.eq_continue {k : Option ℕ} (h : default.Leads readonly N env none k) :
    default = .continue := by
  cases default with
  | error => obtain ⟨m, hm, -⟩ := h; cases hm
  | «continue» => rfl
  | entity named entity => obtain ⟨m, hm, -⟩ := h; cases hm

theorem Default.Leads.isSome (h : default.Leads readonly N env j (some k)) : ∃ d, j = some d := by
  cases j with
  | none => obtain rfl := h.eq_continue; cases h
  | some d => exact ⟨d, rfl⟩

variable (readonly)

mutual

/-- The nodes `do_compile` makes are continued by an `add` that reaches their entry. -/
theorem Entity.Body.linkable :
    ∀ (entity : Entity κ ν) (named : Option String) (env : List ℕ) (m : ℕ),
      Linkable m fun N k => entity.Body readonly N named env m k
  | .primitive _, _, _, m => linkable_points m _
  | .record entities, _, env, m =>
    .ex fun start => .ex fun j => .ex fun pop => .ex fun release =>
      .after (stable_points m _ start) <| .after (stable_points start _ j) <|
        .after (Entities.Chain.stable entities env j pop) <|
        .after (stable_points pop _ release) <| linkable_points release _
  | .sequence entities, _, env, m =>
    .ex fun j => .ex fun pop =>
      .after (stable_points m _ j) <| .after (Entities.Chain.stable entities env j pop) <|
        linkable_points pop _
  | .union entities, _, env, m =>
    .ex fun j => .ex fun finish =>
      .after (stable_points m _ j) <| .after (Entities.Members.stable entities env j finish) <|
        linkable_points finish _
  | .try .nil, _, _, _ =>
    ⟨fun _ ⟨_, _, hne, _⟩ => absurd rfl hne, fun ⟨_, _, hne, _⟩ => absurd rfl hne,
      fun _ _ ⟨_, _, hne, _⟩ => absurd rfl hne⟩
  | .try (.cons named' entity rest), named, env, m =>
    .ex fun finish => .after (Entities.Tried.stable (.cons named' entity rest) env named finish m) <|
      .beside (.const (a := m) _) <| linkable_points finish _
  | .branch cases default _, named, env, m => by
    have hdefault := Default.Leads.linkable default env
    obtain ⟨hmono, hlink⟩ := Cases.Table.linkable cases env named
    refine ⟨?_, ?_, ?_⟩
    · rintro N N' k hg ⟨table, j, hm, htable, hj⟩
      obtain ⟨d, rfl⟩ := hj.isSome
      exact ⟨table, some d, (linkable_branches ..).mono hg hm, hmono table hg htable,
        (hdefault d).mono hg hj⟩
    · rintro N k ⟨table, j, hm, -, hj⟩
      obtain ⟨d, rfl⟩ := hj.isSome
      exact ((linkable_branches ..).reach hm).trans ((hdefault d).reach hj)
    · rintro N N' r k hl hr ⟨table, j, hm, htable, hj⟩
      have htable' := hlink table (fun p hp => hl.of_reach (hr.trans (hm.reach_case hp))) htable
      cases j with
      | none =>
        obtain rfl := hj.eq_continue
        exact ⟨table, k, (linkable_branches ..).link hl hr hm, htable', rfl⟩
      | some d =>
        exact ⟨table, some d, (linkable_branches ..).mono hl.grows hm, htable',
          (hdefault d).link hl (hr.trans ((linkable_branches ..).reach hm)) hj⟩
  | .array inner entity _, _, env, m =>
    .ex fun loop => .ex fun push => .ex fun n => .ex fun pop => .ex fun finish =>
      .after (stable_points m _ loop) <| .after ((linkable_branches loop _ _).stable finish) <|
        .beside (stable_points push _ n) <|
        .beside ((Wrapped.linkable _ (Entity.Body.linkable entity inner) env n).stable pop) <|
        .beside (stable_points pop _ loop) <| linkable_points finish _
  | .recurs _, _, _, m => .ex fun _ => .beside (.const (a := m) _) <| linkable_points m _

theorem Entities.Chain.stable : ∀ (entities : Entities κ ν) (env : List ℕ) (m k : ℕ),
      Stable m k fun N => entities.Chain readonly N env m k
  | .nil, _, _, _ => ⟨fun _ h => h, fun h => h ▸ .refl⟩
  | .cons named entity rest, env, m, k =>
    .ex fun j =>
      .seq ((Wrapped.linkable _ (Entity.Body.linkable entity named) env m).stable j)
        (Entities.Chain.stable rest env j k)

theorem Entities.Members.stable : ∀ (entities : Entities κ ν) (env : List ℕ) (m k : ℕ),
      Stable m k fun N => entities.Members readonly N env m k
  | .nil, _, _, _ => ⟨fun _ h => h, fun h => h ▸ .refl⟩
  | .cons named entity rest, env, m, k =>
    .ex fun restart => .ex fun j =>
      .seq ((Wrapped.linkable _ (Entity.Body.linkable entity named) env m).stable restart) <|
        .seq (stable_points restart _ j) (Entities.Members.stable rest env j k)

theorem Entities.Tried.stable :
    ∀ (cases : Entities κ ν) (env : List ℕ) (named : Option String) (finish m : ℕ),
      Stable m (match cases with | .nil => m | .cons .. => finish) fun N =>
        cases.Tried readonly N env named finish m
  | .nil, _, _, _, m => stable_fails m _
  | .cons named' entity rest, env, named, finish, m =>
    .ex fun c => .ex fun j =>
      .seq (stable_attempts m named c j) <|
        .beside ((Wrapped.linkable _ (Entity.Body.linkable entity named') env j).stable finish)
          (Entities.Tried.stable rest env named finish c)

theorem Cases.Table.linkable : ∀ (cases : Cases κ ν) (env : List ℕ) (named : Option String),
      (∀ table {N N' k}, Grows N N' → cases.Table readonly N env named table (some k) →
        cases.Table readonly N' env named table (some k)) ∧
      ∀ table {N N' k}, (∀ p ∈ table, Links N N' p.2 k) →
        cases.Table readonly N env named table none → cases.Table readonly N' env named table k
  | .nil, _, _ => ⟨fun _ _ _ _ _ h => h, fun _ _ _ _ _ h => h⟩
  | .cons _ named' entity rest, env, named => by
    have he := Wrapped.linkable entity.isCompound
      (Entity.Body.linkable entity (named.or named')) env
    obtain ⟨hmono, hlink⟩ := Cases.Table.linkable rest env named
    refine ⟨?_, ?_⟩
    · rintro _ N N' k hg ⟨m, table, rfl, hm, htable⟩
      exact ⟨m, table, rfl, (he m).mono hg hm, hmono table hg htable⟩
    · rintro _ N N' k hl ⟨m, table, rfl, hm, htable⟩
      exact ⟨m, table, rfl, (he m).link (hl _ (List.mem_cons_self ..)) .refl hm,
        hlink table (fun p hp => hl p (List.mem_cons_of_mem _ hp)) htable⟩

theorem Default.Leads.linkable : ∀ (default : Default κ ν) (env : List ℕ) (d : ℕ),
      Linkable d fun N k => default.Leads readonly N env (some d) k
  | .error, _, d => (linkable_points d _).entered
  | .continue, _, _ => ⟨fun _ h => h, fun h => Option.some.inj h ▸ .refl, nofun⟩
  | .entity named entity, env, d =>
    (Wrapped.linkable _ (Entity.Body.linkable entity named) env d).entered

end

theorem Entity.Code.linkable (entity : Entity κ ν) (named : Option String)
    (env : List ℕ) (m : ℕ) : Linkable m fun N k => entity.Code readonly N named env m k :=
  Wrapped.linkable _ (Entity.Body.linkable readonly entity named) env m

theorem Default.Leads.of_some {readonly : Bool} (h : ∀ i nd, N i = some nd → N' i = some nd)
    (hj : default.Leads readonly N env j none) : default.Leads readonly N' env j none := by
  cases j with
  | none =>
    obtain rfl := hj.eq_continue
    exact hj
  | some d => exact (Default.Leads.linkable readonly default env d).link (.of_some h d) .refl hj

end Linkable

end Haka.Grammar
