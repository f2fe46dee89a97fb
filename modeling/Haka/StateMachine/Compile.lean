import Haka.StateMachine.Actions

/-!
# Compiled state machines

What the compilation makes of the registered actions. `registered` lists the actions of an event in
the order of their registration. For the event of a name, the list of a compiled state is the one of
its state followed by the one of `any`, the latter as many times as the state has names
(`defaulted_named`); the first action that may run is the same as if it were there once
(`fire_eq`). For a timeout, `setdefaults` appends the table of `any` to the one of the state.
-/

namespace Haka

open List ActionCollection

variable {σ : Type}

/-! ## What is registered -/

/-- The actions registered for an event by the calls of `on`, in the order of the registration. -/
def registered (calls : List (Registration σ)) (e : Event) : List (StateAction σ) :=
  calls.flatMap fun r => (r.events.filter (· = e)).map fun _ => r.action

/-- The durations of the timeouts registered by the calls of `on`. -/
def durations (calls : List (Registration σ)) : List ℚ :=
  calls.flatMap fun r => r.events.filterMap fun
    | .timeout secs => some secs
    | .named _ => none

theorem length_registered (calls : List (Registration σ)) (q : ℚ) :
    (registered calls (.timeout q)).length = (durations calls).count q := by
  induction calls with
  | nil => rfl
  | cons r calls ih =>
    have hone : (r.events.filter (· = Event.timeout q)).length =
        (r.events.filterMap fun
          | .timeout secs => some secs
          | .named _ => none).count q := by
      induction r.events with
      | nil => rfl
      | cons e events ih =>
        cases e with
        | named name => simpa using ih
        | timeout secs =>
          by_cases h : secs = q
          · simp [h, ih]
          · simp [h, ih]
    rw [registered, durations, flatMap_cons, flatMap_cons, length_append,
      length_map, count_append, hone]
    exact congrArg _ ih

namespace ActionCollection

def named (c : ActionCollection σ) (name : String) : List (StateAction σ) :=
  (c.actions.lookup name).getD []

/-- What calls of `on` add: the actions `l e` to each event `e`. A timeout keeps the last one. -/
structure Adds (c c' : ActionCollection σ) (l : Event → List (StateAction σ)) : Prop where
  const : c'.const = c.const
  events : c.const → ∀ name, name ∈ c'.actions ↔ name ∈ c.actions
  named : ∀ name, c'.named name = c.named name ++ l (.named name)
  timeouts : ∀ q, c'.timeouts.lookup q = (l (.timeout q)).getLast?.or (c.timeouts.lookup q)

variable {c c' c'' : ActionCollection σ} {l l' : Event → List (StateAction σ)} {a : StateAction σ}

theorem Adds.refl (c : ActionCollection σ) : Adds c c fun _ => [] where
  const := rfl
  events _ _ := Iff.rfl
  named _ := (append_nil _).symm
  timeouts _ := rfl

theorem Adds.trans (h : Adds c c' l) (h' : Adds c' c'' l') : Adds c c'' fun e => l e ++ l' e where
  const := h'.const.trans h.const
  events hc name := (h'.events (h.const.trans hc) name).trans (h.events hc name)
  named name := by rw [h'.named, h.named, append_assoc]
  timeouts q := by rw [h'.timeouts, h.timeouts, getLast?_append, Option.or_assoc]

theorem named_insert (t : Lua.Table ℚ (StateAction σ)) (n name : String)
    (l : List (StateAction σ)) :
    named ⟨c.const, c.actions.insert n l, t⟩ name = if n = name then l else c.named name := by
  by_cases h : n = name
  · subst h
    simp [named]
  · rw [if_neg h, named, named, AList.lookup_insert_ne (Ne.symm h)]

theorem adds_insert {n : String} (hn : c.const → n ∈ c.actions) :
    Adds c { c with actions := c.actions.insert n (c.named n ++ [a]) }
      fun e => if e = .named n then [a] else [] where
  const := rfl
  events hc name := by
    rw [AList.mem_insert]
    exact ⟨fun h => h.elim (fun h => h ▸ hn hc) id, .inr⟩
  named name := by
    rw [named_insert]
    by_cases h : n = name
    · simp [h]
    · simp [h, Ne.symm h]
  timeouts q := by simp

theorem adds_onEvent {e : Event} (h : c.onEvent a e = .ok c') :
    Adds c c' fun e' => if e' = e then [a] else [] := by
  cases e with
  | timeout secs =>
    cases h
    refine ⟨rfl, fun _ _ => Iff.rfl, fun name => by simp [named], fun q => ?_⟩
    by_cases hq : q = secs
    · subst hq
      simp
    · simp [hq, AList.lookup_insert_ne hq]
  | named n =>
    by_cases ht : n = "timeouts"
    · simp [onEvent, ht] at h
    rw [onEvent, if_neg ht] at h
    cases hl : c.actions.lookup n with
    | some l =>
      have hnamed : c.named n = l := by rw [named, hl]; rfl
      rw [hl] at h
      cases h
      rw [← hnamed]
      exact adds_insert fun _ => AList.lookup_isSome.1 (by rw [hl]; rfl)
    | none =>
      have hnamed : c.named n = [] := by rw [named, hl]; rfl
      rw [hl] at h
      by_cases hc : c.const
      · simp [hc] at h
      · simp only [if_neg hc] at h
        cases h
        have hadds := adds_insert (a := a) (n := n) fun h => absurd h hc
        rwa [hnamed, nil_append] at hadds

theorem adds_foldlM {ι : Type} {f : ActionCollection σ → ι → Except LuaError (ActionCollection σ)}
    {g : ι → Event → List (StateAction σ)} (hf : ∀ c i c', f c i = .ok c' → Adds c c' (g i))
    {is : List ι} (h : is.foldlM f c = .ok c') : Adds c c' fun e => is.flatMap fun i => g i e := by
  induction is generalizing c with
  | nil =>
    cases h
    exact .refl _
  | cons i is ih =>
    rw [foldlM_cons] at h
    cases hi : f c i with
    | error e => rw [hi] at h; cases h
    | ok c1 =>
      rw [hi] at h
      exact (hf c i c1 hi).trans (ih h)

theorem adds_on {r : Registration σ} (h : c.on r = .ok c') :
    Adds c c' fun e => (r.events.filter (· = e)).map fun _ => r.action := by
  rw [on] at h
  split_ifs at h
  have hadds := adds_foldlM (fun c e c' => adds_onEvent) h
  have heq (e : Event) : (r.events.flatMap fun i => if e = i then [r.action] else []) =
      (r.events.filter (· = e)).map fun _ => r.action := by
    induction r.events with
    | nil => rfl
    | cons e' events ih =>
      rw [flatMap_cons, ih]
      by_cases he : e' = e
      · simp [he]
      · simp [he, Ne.symm he]
  simpa only [heq] using hadds

/-- **The calls of `on`** add the actions that they register. -/
theorem adds_calls {calls : List (Registration σ)} (h : calls.foldlM on c = .ok c') :
    Adds c c' (registered calls) :=
  adds_foldlM (fun _ _ _ => adds_on) h

/-! ### The events of a state -/

variable {name : String}

theorem mem_registerEvent {event : String} : name ∈ (c.registerEvent event).actions ↔
      name ∈ c.actions ∨ name = event ∧ name ≠ "timeouts" := by
  rw [registerEvent]
  by_cases h : event = "timeouts" ∨ event ∈ c.actions
  · rw [if_pos h]
    refine ⟨.inl, ?_⟩
    rintro (hm | ⟨rfl, ht⟩)
    · exact hm
    · exact h.resolve_left ht
  · rw [if_neg h, AList.mem_insert]
    push Not at h
    constructor
    · rintro (rfl | hm)
      · exact .inr ⟨rfl, h.1⟩
      · exact .inl hm
    · rintro (hm | ⟨rfl, -⟩)
      · exact .inr hm
      · exact .inl rfl

theorem mem_registerEvents {events : List String} : name ∈ (c.registerEvents events).actions ↔
      name ∈ c.actions ∨ name ∈ events ∧ name ≠ "timeouts" := by
  induction events generalizing c with
  | nil => simp [registerEvents]
  | cons event events ih =>
    have h := ih (c := c.registerEvent event)
    rw [registerEvents] at h
    rw [registerEvents, foldl_cons, h, mem_registerEvent, mem_cons]
    tauto

theorem mem_foldl_registerEvents {classes : List (List String)} :
    name ∈ (classes.foldl registerEvents c).actions ↔
      name ∈ c.actions ∨ (∃ events ∈ classes, name ∈ events) ∧ name ≠ "timeouts" := by
  induction classes generalizing c with
  | nil => simp
  | cons events classes ih =>
    rw [foldl_cons, ih, mem_registerEvents]
    simp only [mem_cons, exists_eq_or_imp]
    tauto

/-- No action is registered. -/
structure Blank (c : ActionCollection σ) : Prop where
  named : ∀ name, c.named name = []
  timeouts : ∀ q, c.timeouts.lookup q = none

theorem blank_create (const : Bool) : Blank (σ := σ) (create const) :=
  ⟨fun _ => rfl, fun _ => rfl⟩

theorem Blank.registerEvent (h : c.Blank) (event : String) : (c.registerEvent event).Blank := by
  rw [ActionCollection.registerEvent]
  split_ifs
  · exact h
  · refine ⟨fun name => ?_, h.timeouts⟩
    rw [named_insert, h.named, ite_self]

theorem registerEvent_const (event : String) : (c.registerEvent event).const = c.const := by
  rw [registerEvent]
  split_ifs <;> rfl

theorem state_blank (classes : List (List String)) :
    (state classes : ActionCollection σ).const = true ∧
      (state classes : ActionCollection σ).Blank := by
  let P (c : ActionCollection σ) : Prop := c.const = true ∧ c.Blank
  have hevents (events : List String) (c : ActionCollection σ) (h : P c) :
      P (c.registerEvents events) :=
    foldlRecOn (motive := P) events registerEvent h fun c hc event _ =>
      ⟨(registerEvent_const event).trans hc.1, hc.2.registerEvent event⟩
  exact foldlRecOn (motive := P) _ registerEvents ⟨rfl, blank_create true⟩
    fun c hc events _ => hevents events c hc

end ActionCollection

def StateObject.Supports (o : StateObject σ) : Event → Prop
  | .timeout _ => True
  | .named name => (∃ events ∈ o.classes ++ [stateEvents], name ∈ events) ∧ name ≠ "timeouts"

namespace StateObject

variable (o : StateObject σ)

theorem adds : ActionCollection.Adds (.state o.classes) o.collection (registered o.calls) :=
  adds_calls o.accepted

theorem named_collection (name : String) :
    o.collection.named name = registered o.calls (.named name) := by
  rw [o.adds.named, (state_blank o.classes).2.named, nil_append]

theorem lookup_collection (q : ℚ) :
    o.collection.timeouts.lookup q = (registered o.calls (.timeout q)).getLast? := by
  rw [o.adds.timeouts, (state_blank o.classes).2.timeouts, Option.or_none]

theorem mem_collection (name : String) :
    name ∈ o.collection.actions ↔ o.Supports (.named name) := by
  rw [o.adds.events (state_blank o.classes).1, state,
    mem_foldl_registerEvents]
  exact or_iff_right (not_mem_nil)

end StateObject

namespace Definition

variable (d : Definition σ)

theorem adds : ActionCollection.Adds (.create false) d.defaults (registered d.calls) :=
  adds_calls d.accepted

theorem named_defaults (name : String) :
    d.defaults.named name = registered d.calls (.named name) := by
  rw [d.adds.named, (blank_create false).named, nil_append]

theorem lookup_defaults (q : ℚ) :
    d.defaults.timeouts.lookup q = (registered d.calls (.timeout q)).getLast? := by
  rw [d.adds.timeouts, (blank_create false).timeouts, Option.or_none]

end Definition

/-! ## What the compilation keeps -/

namespace ActionCollection

variable (len : Lua.Length ℚ (StateAction σ)) {c : ActionCollection σ}

theorem setdefault_timeouts (e : Sigma fun _ : String => List (StateAction σ)) :
    (c.setdefault e).timeouts = c.timeouts := by
  rw [setdefault]
  split <;> rfl

theorem mem_setdefault (e : Sigma fun _ : String => List (StateAction σ)) (name : String) :
    name ∈ (c.setdefault e).actions ↔ name ∈ c.actions := by
  rw [setdefault]
  split
  · rfl
  case h_2 l hl =>
    rw [AList.mem_insert]
    refine ⟨?_, .inr⟩
    rintro (rfl | h)
    · exact AList.lookup_isSome.1 (by rw [hl]; rfl)
    · exact h

variable {name : String}

theorem named_setdefault {e : Sigma fun _ : String => List (StateAction σ)} (h : name ∈ c.actions) :
    (c.setdefault e).named name = c.named name ++ if e.1 = name then e.2 else [] := by
  rw [setdefault]
  split
  case h_1 hl =>
    rw [if_neg, append_nil]
    rintro rfl
    exact AList.lookup_eq_none.1 hl h
  case h_2 l hl =>
    rw [named_insert]
    split_ifs with hn
    · subst hn
      rw [named, hl]
      rfl
    · rw [append_nil]

theorem foldl_setdefault (es : List (Sigma fun _ : String => List (StateAction σ))) :
    (es.foldl setdefault c).timeouts = c.timeouts ∧
      (∀ name, name ∈ (es.foldl setdefault c).actions ↔ name ∈ c.actions) ∧
      ∀ name ∈ c.actions, (es.foldl setdefault c).named name =
        c.named name ++ es.flatMap fun e => if e.1 = name then e.2 else [] := by
  induction es generalizing c with
  | nil => simp
  | cons e es ih =>
    obtain ⟨ht, hm, hn⟩ := ih
    refine ⟨ht.trans (setdefault_timeouts e), fun name => (hm name).trans (mem_setdefault e name),
      fun name h => ?_⟩
    rw [foldl_cons, hn name ((mem_setdefault e name).2 h), named_setdefault h,
      append_assoc, flatMap_cons]

theorem flatMap_entries {es : List (Sigma fun _ : String => List (StateAction σ))}
    (hes : es.NodupKeys) (name : String) :
    (es.flatMap fun e => if e.1 = name then e.2 else []) = (es.dlookup name).getD [] := by
  induction es with
  | nil => rfl
  | cons e es ih =>
    obtain ⟨n, l⟩ := e
    obtain ⟨hn, hes⟩ := nodupKeys_cons.1 hes
    rw [flatMap_cons, ih hes]
    by_cases h : n = name
    · subst h
      rw [if_pos rfl, dlookup_cons_eq, dlookup_eq_none.2 hn]
      exact append_nil l
    · rw [if_neg h, dlookup_cons_ne _ _ (Ne.symm h)]
      rfl

theorem setdefaults_spec (c defaults : ActionCollection σ) :
    (c.setdefaults len defaults).timeouts = c.timeouts.append len defaults.timeouts ∧
      (∀ name, name ∈ (c.setdefaults len defaults).actions ↔ name ∈ c.actions) ∧
      ∀ name ∈ c.actions,
        (c.setdefaults len defaults).named name = c.named name ++ defaults.named name := by
  obtain ⟨ht, hm, hn⟩ := foldl_setdefault defaults.actions.entries
  refine ⟨ht, hm, fun name h => ?_⟩
  rw [setdefaults, hn name h, flatMap_entries defaults.actions.nodupKeys]
  rfl

/-- `setdefaults` made `k` times. -/
def defaulted (len : Lua.Length ℚ (StateAction σ)) (c defaults : ActionCollection σ) (k : ℕ) :
    ActionCollection σ :=
  (fun c => c.setdefaults len defaults)^[k] c

theorem defaulted_named (defaults : ActionCollection σ) (k : ℕ) (h : name ∈ c.actions) :
    name ∈ (c.defaulted len defaults k).actions ∧
      (c.defaulted len defaults k).named name =
        c.named name ++ (replicate k (defaults.named name)).flatten := by
  induction k generalizing c with
  | zero => exact ⟨h, (append_nil _).symm⟩
  | succ k ih =>
    obtain ⟨-, hm, hn⟩ := setdefaults_spec len c defaults
    obtain ⟨hmem, hnamed⟩ := ih ((hm name).2 h)
    refine ⟨hmem, hnamed.trans ?_⟩
    rw [hn name h, append_assoc, replicate_succ, flatten_cons]

end ActionCollection

/-- The objects that the entries of `_states` name. -/
def objectsOf (l : List (Sigma fun _ : String => ℕ)) : List ℕ := l.map fun e => e.2

section CompileStates

open ActionCollection

variable (len : Lua.Length ℚ (StateAction σ)) (defaults : ActionCollection σ)

theorem compileStates_objects (l : List (Sigma fun _ : String => ℕ))
    (objects : ℕ → ActionCollection σ) (o : ℕ) :
    (compileStates len defaults l objects).2 o =
      (objects o).defaulted len defaults ((objectsOf l).count o) := by
  induction l generalizing objects with
  | nil => rfl
  | cons e l ih =>
    obtain ⟨name, o'⟩ := e
    simp only [compileStates, ih, objectsOf, map_cons, count_cons]
    by_cases h : o' = o
    · subst h
      simp only [Function.update_self, beq_self_eq_true, if_true]
      rfl
    · rw [Function.update_of_ne (Ne.symm h), if_neg (by simpa using h)]
      rfl

theorem compileStates_states (l : List (Sigma fun _ : String => ℕ))
    (objects : ℕ → ActionCollection σ) (i : ℕ) :
    (compileStates len defaults l objects).1[i]? = l[i]?.map fun e =>
      ⟨e.1, e.2, ((objects e.2).defaulted len defaults
        ((objectsOf (l.take (i + 1))).count e.2)).timers⟩ := by
  induction l generalizing objects i with
  | nil => rfl
  | cons e l ih =>
    obtain ⟨name, o⟩ := e
    cases i with
    | zero => simp [compileStates, objectsOf, defaulted]
    | succ i =>
      simp only [compileStates, getElem?_cons_succ, ih, take_succ_cons, objectsOf,
        map_cons, count_cons]
      congr 1
      funext e
      by_cases h : o = e.2
      · rw [← h, Function.update_self, if_pos (beq_self_eq_true _)]
        rfl
      · rw [Function.update_of_ne (Ne.symm h), if_neg (by simpa using h)]
        rfl

end CompileStates

/-! ## The first action that may run -/

def firstHolding (l : List (StateAction σ)) (x : σ) : Option (StateAction σ) :=
  l.find? fun a => a.holds x

theorem firstHolding_append (l l' : List (StateAction σ)) (x : σ) :
    firstHolding (l ++ l') x = (firstHolding l x).or (firstHolding l' x) :=
  find?_append

theorem firstHolding_replicate (l : List (StateAction σ)) (x : σ) {k : ℕ} (hk : 0 < k) :
    firstHolding (replicate k l).flatten x = firstHolding l x := by
  induction k with
  | zero => omega
  | succ k ih =>
    rw [replicate_succ, flatten_cons, firstHolding_append]
    rcases Nat.eq_zero_or_pos k with rfl | hk
    · simp [firstHolding]
    · rw [ih hk, Option.or_self]

theorem transitionsWrapper_eq (table : String → Option Target) (l : List (StateAction σ)) (x : σ) :
    transitionsWrapper table l x = match firstHolding l x with
      | none => (x, .ok none)
      | some a => a.perform table x := by
  induction l with
  | nil => rfl
  | cons a l ih =>
    rw [transitionsWrapper, firstHolding, find?_cons]
    cases h : a.holds x with
    | true => rfl
    | false => exact ih

/-- What is to happen when an event with the actions `l` is triggered: the first action whose guard
holds is run, and if it returns, its jump is made. -/
def Runs (table : String → Option Target) (l : List (StateAction σ)) (x : σ) (out : σ × Effect) :
    Prop :=
  match firstHolding l x with
  | none => out = (x, .stays)
  | some a => out.1 = (a.run x).1 ∧ ((a.run x).2 = none → match a.jump with
      | none => out.2 = .stays
      | some name => ∃ target, table name = some target ∧ out.2 = .updates target)

/-- The jump to be made with the actions `l`: of the first action whose guard holds, if it
returns. -/
def Jumps (l : List (StateAction σ)) (x : σ) (name : String) : Prop :=
  ∃ a, firstHolding l x = some a ∧ (a.run x).2 = none ∧ a.jump = some name

variable {table : String → Option Target} {l : List (StateAction σ)} {x : σ}

theorem runs_iff
    {effect : Except LuaError (Option Target) → Effect} (hstays : effect (.ok none) = .stays) :
    Runs table l x ((transitionsWrapper table l x).1, effect (transitionsWrapper table l x).2) ↔
      ∀ name, Jumps l x name →
        ∃ target, table name = some target ∧ effect (.ok (some target)) = .updates target := by
  rw [transitionsWrapper_eq]
  simp only [Runs, Jumps]
  cases hf : firstHolding l x with
  | none => simp [hstays]
  | some a =>
    rcases hr : a.run x with ⟨y, _ | e⟩
    · cases hj : a.jump with
      | none => simp [StateAction.perform, hr, hj, hstays]
      | some name => cases ht : table name <;> simp [StateAction.perform, hr, hj, ht]
    · simp [StateAction.perform, hr]

theorem Runs.congr {l' : List (StateAction σ)}
    {out : σ × Effect} (h : firstHolding l x = firstHolding l' x) :
    Runs table l x out ↔ Runs table l' x out := by
  rw [Runs, Runs, h]

theorem Jumps.congr {l' : List (StateAction σ)} {name : String}
    (h : firstHolding l x = firstHolding l' x) : Jumps l x name ↔ Jumps l' x name := by
  rw [Jumps, Jumps, h]

/-! ## Compiled machines -/

namespace Definition

variable (d : Definition σ)

def named : List ℕ := objectsOf d.states.entries

def considered (o : ℕ) (e : Event) : List (StateAction σ) :=
  registered (d.objects o).calls e ++ registered d.calls e

def HasInitial : Prop := ∃ o ∈ d.named, d.initial = some o

/-- A name that is found in `_state_table`. -/
def Known (name : String) : Prop := name ∈ ["initial", "fail", "finish"] ∨ name ∈ d.states

end Definition

section Compiled

variable {len : Lua.Length ℚ (StateAction σ)} {d : Definition σ} {m : CompiledMachine σ}

/-- The loop of `compile`, for a definition. -/
def Definition.loop (len : Lua.Length ℚ (StateAction σ)) (d : Definition σ) :
    List (CompiledState σ) × (ℕ → ActionCollection σ) :=
  compileStates len d.defaults d.states.entries fun o => (d.objects o).collection

theorem compile_eq (h : d.compile len = .ok m) :
    m.states = (d.loop len).1 ∧ m.objects = (d.loop len).2 := by
  rw [Definition.compile] at h
  split at h
  case h_1 => cases h
  case h_2 o hi =>
    dsimp only at h
    split at h
    · cases h
    · cases h
      exact ⟨rfl, rfl⟩

theorem loop_objects (len : Lua.Length ℚ (StateAction σ)) (d : Definition σ) :
    (d.loop len).1.map (fun c => (c.name, c.object)) =
      d.states.entries.map fun e => (e.1, e.2) := by
  apply ext_getElem?
  intro i
  rw [getElem?_map, getElem?_map, Definition.loop, compileStates_states, Option.map_map]
  rfl

theorem exists_compile (hd : d.HasInitial) (len : Lua.Length ℚ (StateAction σ)) :
    ∃ m, d.compile len = .ok m := by
  obtain ⟨o, ho, hi⟩ := hd
  have hmap : (d.loop len).1.map CompiledState.object = d.named := by
    have h := congrArg (map Prod.snd) (loop_objects len d)
    rwa [map_map, map_map] at h
  rw [← hmap] at ho
  obtain ⟨c, hc, hco⟩ := mem_map.1 ho
  cases hf : (d.loop len).1.findIdx? fun c => c.object = o with
  | none =>
    have := findIdx?_eq_none_iff.1 hf c hc
    simp [hco] at this
  | some i =>
    refine ⟨⟨(d.loop len).2, (d.loop len).1, i⟩, ?_⟩
    rw [Definition.loop] at hf
    simp only [Definition.compile, hi, hf]
    rfl

theorem stateTable_isSome (h : d.compile len = .ok m) (name : String) :
    (∃ target, m.stateTable name = some target) ↔ d.Known name := by
  have hkeys : m.states.map CompiledState.name = d.states.keys := by
    have h' := congrArg (map Prod.fst) (loop_objects len d)
    rw [map_map, map_map, ← (compile_eq h).1] at h'
    exact h'
  have hmem : name ∈ d.states ↔ ∃ c ∈ m.states, c.name = name := by
    rw [AList.mem_keys, ← hkeys, mem_map]
  rw [Definition.Known, CompiledMachine.stateTable]
  split_ifs with h1 h2 h3
  · simp [h1]
  · simp [h2]
  · simp [h3]
  · simp only [mem_cons, h1, h2, h3, not_mem_nil, or_self, false_or, hmem,
      ← Option.isSome_iff_exists, Option.isSome_map, findIdx?_isSome, any_eq_true,
      decide_eq_true_eq]

theorem Effect.of_updates (name : String) (target : Target) :
    Effect.of name (.ok (some target)) = .updates target ↔
      name ∉ ["fail", "init", "finish"] := by
  rw [Effect.of]
  fun_cases transitionOf name <;>
    simp_all [Effect.ofCallback, Effect.ofTrigger, Transition.updates, transitionCallback]

theorem Effect.of_stays (name : String) : Effect.of name (.ok none) = .stays := by
  rw [Effect.of]
  split <;> rfl

theorem fire_eq (h : d.compile len = .ok m) {s : ℕ} {c : CompiledState σ}
    (hc : m.states[s]? = some c) {name : String}
    (hs : (d.objects c.object).Supports (.named name)) (x : σ) :
    ∃ l, m.fire s name x = ((transitionsWrapper m.stateTable l x).1,
        .of name (transitionsWrapper m.stateTable l x).2) ∧
      ∀ x, firstHolding l x = firstHolding (d.considered c.object (.named name)) x := by
  have hcount : 0 < d.named.count c.object := by
    rw [count_pos_iff]
    have hmem : (c.name, c.object) ∈ (d.loop len).1.map fun c => (c.name, c.object) :=
      mem_map.2 ⟨c, (compile_eq h).1 ▸ mem_of_getElem? hc, rfl⟩
    rw [loop_objects] at hmem
    obtain ⟨e, he, heq⟩ := mem_map.1 hmem
    exact mem_map.2 ⟨e, he, (Prod.mk.inj heq).2⟩
  obtain ⟨hmem, hnamed⟩ := defaulted_named len d.defaults
    (d.named.count c.object) (((d.objects c.object).mem_collection name).2 hs)
  have hobj : m.objects c.object =
      (d.objects c.object).collection.defaulted len d.defaults (d.named.count c.object) := by
    rw [(compile_eq h).2, Definition.loop, compileStates_objects]
    rfl
  rw [← hobj] at hmem hnamed
  obtain ⟨l, hl⟩ := Option.isSome_iff_exists.1 (AList.lookup_isSome.2 hmem)
  have hlnamed : (m.objects c.object).named name = l := by
    rw [named, hl]
    rfl
  refine ⟨l, by simp only [CompiledMachine.fire, hc, hl], fun x => ?_⟩
  rw [← hlnamed, hnamed, firstHolding_append, firstHolding_replicate _ _ hcount,
    StateObject.named_collection, Definition.named_defaults, Definition.considered,
    firstHolding_append]

end Compiled

end Haka
