import Haka.StateMachine.Compile

/-!
# Dispatch of the events of state machines

When an event is triggered in a state, the first action whose guard holds is to run, of the ones
registered on the state and then of the ones on `any`, and its jump is to be made.

For the events that have a name the right action always runs. Jumps are made if they lead to a
state of the machine, but what the callbacks for `fail`, `init` and `finish` return is ignored.
Timeouts are kept in a table by duration, so only the last one of a duration is there, and the table
of `any` is appended to it as if it were a list: what is not found at `1, 2, …` is lost, and the
rest goes to the durations that come next in the table of the state.
-/

namespace Haka

open List Definition

variable {σ : Type}

/-! ## The law -/

def CompiledState.armed (c : CompiledState σ) (q : ℚ) : List (List (StateAction σ)) :=
  (c.timeouts.filter fun t => t.1 = q).map fun t => t.2

/-- **Dispatch.** A compiled machine has the states of the definition. An event runs the first
action whose guard holds, of the ones of the state and then of `any`, and its jump is made. Each
state has one timer for each duration with an action, which goes through all of them in the same
way. -/
structure Dispatches (d : Definition σ) (m : CompiledMachine σ) : Prop where
  states : m.states.map (fun c => (c.name, c.object)) = d.states.entries.map fun e => (e.1, e.2)
  named : ∀ (s : ℕ) (c : CompiledState σ), m.states[s]? = some c → ∀ name,
    (d.objects c.object).Supports (.named name) →
      ∀ x, Runs m.stateTable (d.considered c.object (.named name)) x (m.fire s name x)
  armed : ∀ (s : ℕ) (c : CompiledState σ), m.states[s]? = some c → ∀ q,
    c.armed q =
      if d.considered c.object (.timeout q) = [] then [] else [d.considered c.object (.timeout q)]
  fired : ∀ (s : ℕ) (c : CompiledState σ), m.states[s]? = some c →
    ∀ (i : ℕ) (t : ℚ × List (StateAction σ)), c.timeouts[i]? = some t →
      ∀ x, Runs m.stateTable (d.considered c.object (.timeout t.1)) x (m.fireTimeout s i x)

namespace Definition

variable (d : Definition σ)

/-- The timeouts of each state differ. Those on `any` are none, or `1, …, n` seconds, and then no
state has one of whole seconds, or two names. -/
def KeepsTimeouts : Prop :=
  (∀ o ∈ d.named, (durations (d.objects o).calls).Nodup) ∧
    (durations d.calls = [] ∨
      (∃ n, (durations d.calls).Perm ((range n).map fun j => ((1 + j : ℕ) : ℚ))) ∧
        (∀ o ∈ d.named, ∀ j : ℕ, ((j + 1 : ℕ) : ℚ) ∉ durations (d.objects o).calls) ∧
        d.named.Nodup)

/-- The jumps that are to be made lead to states of the machine, and are not made on `fail`, `init`
and `finish`. -/
def KeepsJumps : Prop :=
  ∀ o ∈ d.named, ∀ e, (d.objects o).Supports e → ∀ x name, Jumps (d.considered o e) x name →
    d.Known name ∧ e ∉ [.named "fail", .named "init", .named "finish"]

end Definition

section Law

variable {len : Lua.Length ℚ (StateAction σ)} {d : Definition σ} {m : CompiledMachine σ}

/-- The table of timeouts that a state has when its name at the place `s` is compiled. -/
def Definition.timeoutsAt (len : Lua.Length ℚ (StateAction σ)) (d : Definition σ) (s o : ℕ) :
    Lua.Table ℚ (StateAction σ) :=
  ((d.objects o).collection.defaulted len d.defaults
    ((objectsOf (d.states.entries.take (s + 1))).count o)).timeouts

theorem filter_timers {es : List (Sigma fun _ : ℚ => StateAction σ)} (hes : es.NodupKeys) (q : ℚ) :
    ((es.map fun e => (e.1, [e.2])).filter fun t : ℚ × List (StateAction σ) => t.1 = q).map
      (fun t => t.2) = ((es.dlookup q).map fun a => [a]).toList := by
  induction es with
  | nil => rfl
  | cons e es ih =>
    obtain ⟨q', a⟩ := e
    obtain ⟨hn, hes⟩ := nodupKeys_cons.1 hes
    by_cases h : q' = q
    · subst h
      rw [dlookup_eq_none.2 hn] at ih
      simpa using ih hes
    · rw [dlookup_cons_ne _ _ (Ne.symm h), ← ih hes]
      simp [h]

variable {s i : ℕ} {c : CompiledState σ} {l : List (StateAction σ)} {t : ℚ × List (StateAction σ)}

theorem state_at (h : d.compile len = .ok m) (hc : m.states[s]? = some c) :
    (∃ e, d.states.entries[s]? = some e ∧ e.2 = c.object) ∧
      ∀ q, c.armed q = (((d.timeoutsAt len s c.object).lookup q).map fun a => [a]).toList := by
  rw [(compile_eq h).1, loop, compileStates_states] at hc
  obtain ⟨e, he, rfl⟩ := Option.map_eq_some_iff.1 hc
  exact ⟨⟨e, he, rfl⟩, filter_timers (AList.nodupKeys _)⟩

variable {e : Sigma fun _ : String => ℕ}

theorem exists_state_at (h : d.compile len = .ok m) (he : d.states.entries[s]? = some e) :
    ∃ c, m.states[s]? = some c ∧ c.object = e.2 := by
  rw [(compile_eq h).1, loop, compileStates_states, he]
  exact ⟨_, rfl, rfl⟩

theorem armed_iff {o : Option (StateAction σ)} :
    (o.map fun a => [a]).toList = (if l = [] then [] else [l]) ↔ l = o.toList := by
  cases o with
  | none => by_cases h : l = [] <;> simp [h]
  | some a => by_cases h : l = [] <;> simp [h, eq_comm]

def TimeoutsRight (len : Lua.Length ℚ (StateAction σ)) (d : Definition σ) : Prop :=
  ∀ s e, d.states.entries[s]? = some e → ∀ q,
    d.considered e.2 (.timeout q) = ((d.timeoutsAt len s e.2).lookup q).toList

theorem mem_named (he : d.states.entries[s]? = some e) : e.2 ∈ d.named :=
  mem_map.2 ⟨e, mem_of_getElem? he, rfl⟩

variable {name : String}

theorem fire_runs_iff (h : d.compile len = .ok m) (hc : m.states[s]? = some c)
    (hs : (d.objects c.object).Supports (.named name)) (x : σ) :
    Runs m.stateTable (d.considered c.object (.named name)) x (m.fire s name x) ↔
      ∀ jump, Jumps (d.considered c.object (.named name)) x jump →
        d.Known jump ∧ name ∉ ["fail", "init", "finish"] := by
  obtain ⟨l, heq, hl⟩ := fire_eq h hc hs x
  rw [heq, ← Runs.congr (hl x), runs_iff (Effect.of_stays name)]
  refine forall_congr' fun jump => ?_
  rw [Jumps.congr (hl x), ← stateTable_isSome h jump]
  simp only [Effect.of_updates, exists_and_right]

theorem fireTimeout_runs_iff (h : d.compile len = .ok m) (hc : m.states[s]? = some c)
    (ht : c.timeouts[i]? = some t) (x : σ) :
    Runs m.stateTable t.2 x (m.fireTimeout s i x) ↔ ∀ jump, Jumps t.2 x jump → d.Known jump := by
  have heq : m.fireTimeout s i x = ((transitionsWrapper m.stateTable t.2 x).1,
      .ofCallback (.timeout i) (transitionCallback (transitionsWrapper m.stateTable t.2 x).2)) := by
    simp only [CompiledMachine.fireTimeout, hc, Option.bind_some, ht]
  let effect (r : Except LuaError (Option Target)) : Effect :=
    .ofCallback (.timeout i) (transitionCallback r)
  have hstays : effect (.ok none) = .stays := rfl
  rw [heq, runs_iff hstays]
  refine forall_congr' fun jump => ?_
  rw [← stateTable_isSome h jump]
  simp [effect, Effect.ofCallback, Transition.updates, transitionCallback]

theorem Jumps.ne_nil {x : σ} (h : Jumps l x name) : l ≠ [] := by
  rintro rfl
  obtain ⟨a, ha, -⟩ := h
  cases ha

theorem mem_armed (ht : c.timeouts[i]? = some t) : t.2 ∈ c.armed t.1 :=
  mem_map.2 ⟨t, mem_filter.2 ⟨mem_of_getElem? ht, by simp⟩, rfl⟩

theorem armed_eq {q : ℚ} (ha : c.armed q = if l = [] then [] else [l])
    (ht : c.timeouts[i]? = some t) (hq : t.1 = q) : t.2 = l := by
  have hm := mem_armed ht
  rw [hq, ha] at hm
  split_ifs at hm
  · cases hm
  · exact mem_singleton.1 hm

theorem dispatches_iff (h : d.compile len = .ok m) :
    Dispatches d m ↔ TimeoutsRight len d ∧ d.KeepsJumps := by
  constructor
  · intro hd
    refine ⟨fun s e he q => ?_, fun o ho e hs x jump hj => ?_⟩
    · obtain ⟨c, hc, hce⟩ := exists_state_at h he
      rw [← hce]
      exact armed_iff.1 (((state_at h hc).2 q).symm.trans (hd.armed s c hc q))
    · obtain ⟨en, hen, rfl⟩ := mem_map.1 ho
      obtain ⟨s, hen⟩ := mem_iff_getElem?.1 hen
      obtain ⟨c, hc, hce⟩ := exists_state_at h hen
      rw [← hce] at hs hj
      cases e with
      | named name =>
        obtain ⟨hk, hn⟩ := (fire_runs_iff h hc hs x).1 (hd.named s c hc name hs x) jump hj
        exact ⟨hk, by simpa using hn⟩
      | timeout q =>
        -- an action is considered, so there is a timer
        have ha := hd.armed s c hc q
        have hm : d.considered c.object (.timeout q) ∈ c.armed q := by
          rw [ha, if_neg hj.ne_nil]
          exact mem_singleton_self _
        obtain ⟨t, ht, hteq⟩ := mem_map.1 hm
        obtain ⟨ht, hq⟩ := mem_filter.1 ht
        have hq : t.1 = q := by simpa using hq
        obtain ⟨i, hi⟩ := mem_iff_getElem?.1 ht
        have hr := hd.fired s c hc i t hi x
        rw [hq, ← hteq] at hr
        rw [← hteq] at hj
        exact ⟨(fireTimeout_runs_iff h hc hi x).1 hr jump hj, by simp⟩
  · rintro ⟨ht, hj⟩
    have harmed (s : ℕ) (c : CompiledState σ) (hc : m.states[s]? = some c) (q : ℚ) :
        c.armed q = if d.considered c.object (.timeout q) = [] then []
          else [d.considered c.object (.timeout q)] := by
      obtain ⟨⟨e, he, hce⟩, ha⟩ := state_at h hc
      rw [ha, armed_iff, ← hce]
      exact ht s e he q
    have hnamed {s : ℕ} {c : CompiledState σ} (hc : m.states[s]? = some c) :
        c.object ∈ d.named := by
      obtain ⟨⟨e, he, hce⟩, -⟩ := state_at h hc
      exact hce ▸ mem_named he
    refine ⟨(compile_eq h).1 ▸ loop_objects len d, fun s c hc name hs x => ?_, harmed,
      fun s c hc i t hi x => ?_⟩
    · refine (fire_runs_iff h hc hs x).2 fun jump hjump => ?_
      obtain ⟨hk, hn⟩ := hj c.object (hnamed hc) _ hs x jump hjump
      exact ⟨hk, by simpa using hn⟩
    · have hl := armed_eq (harmed s c hc t.1) hi rfl
      rw [← hl]
      refine (fireTimeout_runs_iff h hc hi x).2 fun jump hjump => ?_
      rw [hl] at hjump
      exact (hj c.object (hnamed hc) (.timeout t.1) trivial x jump hjump).1

end Law

/-! ## The tables of timeouts -/

section Timeouts

open ActionCollection

variable {calls : List (Registration σ)} {t : Lua.Table ℚ (StateAction σ)}

variable {q : ℚ}

theorem registered_eq_nil : registered calls (.timeout q) = [] ↔ q ∉ durations calls := by
  rw [← length_eq_zero_iff, length_registered, count_eq_zero]

def KeepsLast (t : Lua.Table ℚ (StateAction σ)) (calls : List (Registration σ)) : Prop :=
  ∀ q, t.lookup q = (registered calls (.timeout q)).getLast?

theorem KeepsLast.mem_iff (h : KeepsLast t calls) (q : ℚ) : q ∈ t ↔ q ∈ durations calls := by
  rw [← AList.lookup_isSome, h, ← not_iff_not, ← registered_eq_nil, Bool.not_eq_true,
    Option.isSome_eq_false_iff, Option.isNone_iff_eq_none, getLast?_eq_none_iff]

theorem KeepsLast.toList (h : KeepsLast t calls) (hn : (registered calls (.timeout q)).length ≤ 1) :
    registered calls (.timeout q) = (t.lookup q).toList := by
  rw [h q]
  match registered calls (.timeout q), hn with
  | [], _ => rfl
  | [_], _ => rfl

theorem KeepsLast.eq_empty (h : KeepsLast t calls) (hc : durations calls = []) (q : ℚ) : q ∉ t := by
  rw [h.mem_iff, hc]
  exact not_mem_nil

theorem StateObject.keepsLast (o : StateObject σ) : KeepsLast o.collection.timeouts o.calls :=
  o.lookup_collection

theorem Definition.keepsLast (d : Definition σ) : KeepsLast d.defaults.timeouts d.calls :=
  d.lookup_defaults

variable (len : Lua.Length ℚ (StateAction σ))

theorem defaulted_timeouts (c defaults : ActionCollection σ) (k : ℕ) :
    (c.defaulted len defaults k).timeouts =
      (fun t : Lua.Table ℚ (StateAction σ) => t.append len defaults.timeouts)^[k] c.timeouts := by
  induction k generalizing c with
  | zero => rfl
  | succ k ih =>
    rw [Function.iterate_succ_apply, ← (setdefaults_spec len c defaults).1]
    exact ih _

theorem length_iterate_append (src : Lua.Table ℚ (StateAction σ)) (k : ℕ) :
    ((fun t : Lua.Table ℚ (StateAction σ) => t.append len src)^[k] t).entries.length =
      t.entries.length + k * src.ipairs.length := by
  induction k generalizing t with
  | zero => simp
  | succ k ih =>
    rw [Function.iterate_succ_apply, ih, Lua.Table.append, Lua.Table.length_foldl_push]
    ring

/-! ### Places of names -/

variable {l : List (Sigma fun _ : String => ℕ)}

theorem exists_first {o : ℕ} (ho : o ∈ objectsOf l) :
    ∃ (s : ℕ) (e : Sigma fun _ : String => ℕ), l[s]? = some e ∧ e.2 = o ∧
      (objectsOf (l.take (s + 1))).count o = 1 := by
  induction l with
  | nil => cases ho
  | cons e l ih =>
    by_cases he : e.2 = o
    · exact ⟨0, e, rfl, he, by simp [objectsOf, he]⟩
    · have ho : o ∈ objectsOf l := (mem_cons.1 ho).resolve_left (Ne.symm he)
      obtain ⟨s, e', hs, heo, hcount⟩ := ih ho
      refine ⟨s + 1, e', hs, heo, ?_⟩
      rw [take_succ_cons, objectsOf, map_cons, count_cons_of_ne he]
      exact hcount

theorem nodup_of_count (h : ∀ (s : ℕ) (e : Sigma fun _ : String => ℕ), l[s]? = some e →
      (objectsOf (l.take (s + 1))).count e.2 = 1) : (objectsOf l).Nodup := by
  induction l using reverseRecOn with
  | nil => exact nodup_nil
  | append_singleton l e ih =>
    have hl : (objectsOf l).Nodup := by
      refine ih fun s e' hs => ?_
      have hlt := (List.getElem?_eq_some_iff.1 hs).1
      have := h s e' (by rwa [getElem?_append_left hlt])
      rwa [take_append_of_le_length (by omega)] at this
    have he := h l.length e (by simp)
    rw [take_of_length_le (by simp), objectsOf, map_append, count_append] at he
    have hnot : e.2 ∉ objectsOf l := by
      rw [← count_eq_zero, objectsOf]
      simpa using he
    rw [objectsOf, map_append, nodup_append]
    refine ⟨hl, nodup_singleton _, ?_⟩
    rintro a ha b hb rfl
    rw [mem_singleton.1 hb] at ha
    exact hnot ha

theorem count_take (hl : (objectsOf l).Nodup) {s : ℕ} {e : Sigma fun _ : String => ℕ}
    (he : l[s]? = some e) :
    (objectsOf (l.take (s + 1))).count e.2 = 1 := by
  apply le_antisymm
  · have hsub : (objectsOf (l.take (s + 1))).Sublist (objectsOf l) :=
      (take_sublist _ _).map _
    exact nodup_iff_count_le_one.1 (hsub.nodup hl) _
  · rw [Nat.one_le_iff_ne_zero, ← Nat.pos_iff_ne_zero, count_pos_iff]
    refine mem_map.2 ⟨e, ?_, rfl⟩
    refine mem_of_getElem? (i := s) ?_
    rwa [getElem?_take_of_lt (by omega)]

/-! ### When the tables are right -/

variable {len} {d : Definition σ}

theorem considered_length (d : Definition σ) (o : ℕ) (q : ℚ) :
    (d.considered o (.timeout q)).length =
      (durations (d.objects o).calls).count q + (durations d.calls).count q := by
  rw [considered, length_append, length_registered, length_registered]

theorem timeoutsRight_of_keeps (h : d.KeepsTimeouts) (len : Lua.Length ℚ (StateAction σ)) :
    TimeoutsRight len d := by
  obtain ⟨hnd, hany⟩ := h
  intro s e he q
  have hobj : registered (d.objects e.2).calls (.timeout q) =
      ((d.objects e.2).collection.timeouts.lookup q).toList := by
    apply (d.objects e.2).keepsLast.toList
    rw [length_registered]
    exact nodup_iff_count_le_one.1 (hnd e.2 (mem_named he)) q
  rw [considered, timeoutsAt, defaulted_timeouts, hobj]
  rcases hany with hnil | ⟨⟨n, hn⟩, hfree, hnames⟩
  · -- nothing is appended
    have hno := d.keepsLast.eq_empty hnil
    have hpairs : d.defaults.timeouts.ipairs = [] := by
      rw [← length_eq_zero_iff]
      exact Lua.Table.length_ipairs fun k => by simp [hno k]
    rw [Lua.Table.append_eq_id len hpairs, Function.iterate_id,
      registered_eq_nil.2 (by simp [hnil]), append_nil]
    rfl
  · -- the timeouts of `any` keep their durations
    have hkeys (k : ℚ) : k ∈ d.defaults.timeouts ↔ ∃ j < n, k = ((1 + j : ℕ) : ℚ) := by
      rw [d.keepsLast.mem_iff, hn.mem_iff, mem_map]
      simp only [mem_range, eq_comm]
    have hnone (j : ℕ) : ((j + 1 : ℕ) : ℚ) ∉ (d.objects e.2).collection.timeouts := by
      rw [(d.objects e.2).keepsLast.mem_iff]
      exact hfree e.2 (mem_named he) j
    have hdef : registered d.calls (.timeout q) = (d.defaults.timeouts.lookup q).toList := by
      apply d.keepsLast.toList
      rw [length_registered]
      refine nodup_iff_count_le_one.1 (hn.nodup_iff.2 ?_) q
      exact (nodup_range).map (Lua.Table.cast_add_injective 1)
    rw [count_take hnames he, Function.iterate_one, Lua.Table.lookup_append len hnone hkeys, hdef]
    by_cases hq : q ∈ d.defaults.timeouts
    · obtain ⟨j, -, rfl⟩ := (hkeys q).1 hq
      rw [Nat.add_comm, AList.lookup_eq_none.2 (hnone j)]
      rfl
    · rw [AList.lookup_eq_none.2 hq, Option.or_none]
      exact append_nil _

section Conversely

variable (h : ∀ len : Lua.Length ℚ (StateAction σ), TimeoutsRight len d)

include h

theorem count_le_one {o : ℕ} (ho : o ∈ d.named) (q : ℚ) :
    (durations (d.objects o).calls).count q + (durations d.calls).count q ≤ 1 := by
  obtain ⟨len⟩ : Nonempty (Lua.Length ℚ (StateAction σ)) := inferInstance
  obtain ⟨s, e, he, rfl, -⟩ := exists_first ho
  rw [← considered_length, h len s e he q]
  cases (d.timeoutsAt len s e.2).lookup q <;> simp

theorem durations_apart {o : ℕ} (ho : o ∈ d.named)
    (hq : q ∈ durations (d.objects o).calls) : q ∉ durations d.calls := by
  intro hany
  have := count_le_one h ho q
  have := count_pos_iff.2 hq
  have := count_pos_iff.2 hany
  omega

variable {s : ℕ} {e : Sigma fun _ : String => ℕ}

theorem mem_timeoutsAt (he : d.states.entries[s]? = some e) (q : ℚ) :
    q ∈ d.timeoutsAt len s e.2 ↔ q ∈ durations (d.objects e.2).calls ∨ q ∈ durations d.calls := by
  have hlaw := h len s e he q
  rw [← AList.lookup_isSome, ← not_iff_not, not_or, ← registered_eq_nil, ← registered_eq_nil,
    ← append_eq_nil_iff, ← considered, hlaw]
  cases (d.timeoutsAt len s e.2).lookup q <;> simp

/-- For each name of a state the defaults are appended once more, but all entries are the ones of
the state and of `any`. -/
theorem length_defaults (he : d.states.entries[s]? = some e) :
    (objectsOf (d.states.entries.take (s + 1))).count e.2 * d.defaults.timeouts.ipairs.length =
      d.defaults.timeouts.entries.length := by
  obtain ⟨len⟩ : Nonempty (Lua.Length ℚ (StateAction σ)) := inferInstance
  have hkeys : (d.timeoutsAt len s e.2).keys.toFinset =
      (d.objects e.2).collection.timeouts.keys.toFinset ∪ d.defaults.timeouts.keys.toFinset := by
    ext q
    rw [Finset.mem_union, mem_toFinset, mem_toFinset, mem_toFinset,
      ← AList.mem_keys, ← AList.mem_keys, ← AList.mem_keys, mem_timeoutsAt h he,
      (d.objects e.2).keepsLast.mem_iff, d.keepsLast.mem_iff]
  have hdis : Disjoint (d.objects e.2).collection.timeouts.keys.toFinset
      d.defaults.timeouts.keys.toFinset := by
    rw [Finset.disjoint_left]
    intro q hq hq'
    rw [mem_toFinset, ← AList.mem_keys] at hq hq'
    exact durations_apart h (mem_named he) (((d.objects e.2).keepsLast.mem_iff q).1 hq)
      ((d.keepsLast.mem_iff q).1 hq')
  have hcard := congrArg Finset.card hkeys
  rw [Finset.card_union_of_disjoint hdis, Lua.Table.card_keys, Lua.Table.card_keys,
    Lua.Table.card_keys, timeoutsAt, defaulted_timeouts, length_iterate_append] at hcard
  omega

/-- The condition holds if the tables are right, whatever the length of a table is. -/
theorem keeps_of_timeoutsRight (hne : d.named ≠ []) : d.KeepsTimeouts := by
  have hnodup (calls : List (Registration σ)) (hc : ∀ q, (durations calls).count q ≤ 1) :
      (durations calls).Nodup := nodup_iff_count_le_one.2 hc
  refine ⟨fun o ho => hnodup _ fun q => ?_, ?_⟩
  · have := count_le_one h ho q
    omega
  obtain ⟨o, ho⟩ := exists_mem_of_ne_nil _ hne
  by_cases hnil : durations d.calls = []
  · exact .inl hnil
  right
  -- the entries are as many as the values that `ipairs` finds
  have hlen : d.defaults.timeouts.ipairs.length = d.defaults.timeouts.entries.length := by
    obtain ⟨s, e, he, rfl, hone⟩ := exists_first ho
    have := length_defaults h he
    rwa [hone, Nat.one_mul] at this
  obtain ⟨q0, hq0⟩ := exists_mem_of_ne_nil _ hnil
  have hpos : 0 < d.defaults.timeouts.ipairs.length := by
    obtain ⟨j, hj, -⟩ := (Lua.Table.mem_iff_of_length hlen q0).1 ((d.keepsLast.mem_iff q0).2 hq0)
    omega
  have hmem (q : ℚ) : q ∈ durations d.calls ↔
      ∃ j < d.defaults.timeouts.ipairs.length, q = ((1 + j : ℕ) : ℚ) := by
    rw [← d.keepsLast.mem_iff]
    exact Lua.Table.mem_iff_of_length hlen q
  refine ⟨⟨d.defaults.timeouts.ipairs.length, ?_⟩, fun o ho j hj => ?_, ?_⟩
  · have hn : (durations d.calls).Nodup := hnodup _ fun q => by
      have := count_le_one h ho q
      omega
    refine (perm_ext_iff_of_nodup hn
      (nodup_range.map (Lua.Table.cast_add_injective 1))).2 fun q => ?_
    rw [hmem, mem_map]
    simp only [mem_range, eq_comm]
  · -- the length may be a border beyond a timeout of the state, where the first default then goes
    obtain ⟨s, e, he, rfl, hone⟩ := exists_first ho
    have hkl := (d.objects e.2).keepsLast
    obtain ⟨b, hjb, hb⟩ := Lua.Table.exists_border_ge (.inr ((hkl.mem_iff _).2 hj))
    obtain ⟨len, hlb⟩ := Lua.Table.exists_length hb
    have h1 : ((1 : ℕ) : ℚ) ∈ d.defaults.timeouts :=
      (d.keepsLast.mem_iff _).2 ((hmem _).2 ⟨0, hpos, rfl⟩)
    obtain ⟨a, ha⟩ := Option.isSome_iff_exists.1 (AList.lookup_isSome.2 h1)
    have hin : ((b + 1 : ℕ) : ℚ) ∈ d.timeoutsAt len s e.2 := by
      have hfirst := Lua.Table.lookup_append_first (t := (d.objects e.2).collection.timeouts) len ha
      rw [← AList.lookup_isSome, timeoutsAt, defaulted_timeouts, hone,
        Function.iterate_one, ← hlb, hfirst]
      rfl
    have hnot : ((b + 1 : ℕ) : ℚ) ∉ durations (d.objects e.2).calls := fun hmem =>
      hb.2 ((hkl.mem_iff _).2 hmem)
    have hany := ((mem_timeoutsAt h he _).1 hin).resolve_left hnot
    obtain ⟨i, hi, heq⟩ := (hmem _).1 hany
    have hib : b + 1 = 1 + i := Nat.cast_injective heq
    have hbo : (b : ℚ) ∈ durations (d.objects e.2).calls :=
      (hkl.mem_iff _).1 (hb.1.resolve_left (by omega))
    refine durations_apart h ho hbo ((hmem _).2 ⟨b - 1, by omega, ?_⟩)
    rw [Nat.add_sub_cancel' (by omega)]
  · refine nodup_of_count fun s e he => ?_
    have := length_defaults h he
    rw [← hlen] at this
    exact Nat.eq_of_mul_eq_mul_right hpos (by rw [this, Nat.one_mul])

end Conversely

end Timeouts

/-- **Dispatch of state machines.** Whatever length the runtime gives a table, the compiled machine
dispatches its events as they were registered if and only if the timeouts and the jumps are
kept. -/
theorem dispatch_iff (d : Definition σ) (hd : d.HasInitial) :
    (∀ len m, d.compile len = .ok m → Dispatches d m) ↔ d.KeepsTimeouts ∧ d.KeepsJumps := by
  have hne : d.named ≠ [] := by
    obtain ⟨o, ho, -⟩ := hd
    exact ne_nil_of_mem ho
  constructor
  · intro h
    have hright (len : Lua.Length ℚ (StateAction σ)) : TimeoutsRight len d ∧ d.KeepsJumps := by
      obtain ⟨m, hm⟩ := exists_compile hd len
      exact (dispatches_iff hm).1 (h len m hm)
    obtain ⟨len⟩ : Nonempty (Lua.Length ℚ (StateAction σ)) := inferInstance
    exact ⟨keeps_of_timeoutsRight (fun len => (hright len).1) hne, (hright len).2⟩
  · rintro ⟨ht, hj⟩ len m hm
    exact (dispatches_iff hm).2 ⟨timeoutsRight_of_keeps ht len, hj⟩

/-- A state with a timeout of half a second, which ends the machine, and `any` with one of a second,
which makes it fail. -/
def twoTimeouts : Definition Unit where
  calls := [⟨⟨none, none, some "fail"⟩, [.timeout 1]⟩]
  defaults := ⟨false, ∅, AList.insert 1 ⟨none, none, some "fail"⟩ ∅⟩
  accepted := rfl
  objects _ := ⟨[], [⟨⟨none, none, some "finish"⟩, [.timeout (1 / 2)]⟩],
    { ActionCollection.state [] with
      timeouts := AList.insert (1 / 2) ⟨none, none, some "finish"⟩ ∅ }, rfl⟩
  states := AList.singleton "idle" 0
  unreserved := by
    intro name hn
    rw [AList.mem_keys, AList.keys_singleton, mem_singleton] at hn
    subst hn
    decide
  initial := some 0

theorem dispatch_twoTimeouts : twoTimeouts.HasInitial ∧
      ∀ len m, twoTimeouts.compile len = .ok m → Dispatches twoTimeouts m := by
  have hd : twoTimeouts.HasInitial := ⟨0, mem_singleton_self 0, rfl⟩
  refine ⟨hd, (dispatch_iff twoTimeouts hd).2 ⟨⟨fun o _ => nodup_singleton _, .inr
    ⟨⟨1, ?_⟩, fun o _ j hj => ?_, nodup_singleton 0⟩⟩, fun o _ e _ x name hj => ?_⟩⟩
  · exact List.Perm.of_eq (by simp [durations, twoTimeouts])
  · have hhalf : ((j + 1 : ℕ) : ℚ) = 1 / 2 := mem_singleton.1 hj
    push_cast at hhalf
    linarith
  · obtain ⟨a, ha, -, hjump⟩ := hj
    have hmem : a ∈ twoTimeouts.considered o e := mem_of_find?_eq_some ha
    cases e with
    | named n => simp [considered, registered, twoTimeouts] at hmem
    | timeout q =>
      have hor : a.jump = some "finish" ∨ a.jump = some "fail" := by
        simp only [considered, registered, twoTimeouts, mem_append,
          mem_flatMap, mem_singleton, mem_map] at hmem
        rcases hmem with ⟨_, rfl, _, -, rfl⟩ | ⟨_, rfl, _, -, rfl⟩
        · exact .inl rfl
        · exact .inr rfl
      rw [hjump, Option.some_inj, Option.some_inj] at hor
      refine ⟨.inl ?_, by simp⟩
      rcases hor with rfl | rfl <;> decide

/-- A state, and a timeout of ten seconds on `any` that ends the machine. -/
def tenSeconds : Definition Unit where
  calls := [⟨⟨none, none, some "finish"⟩, [.timeout 10]⟩]
  defaults := ⟨false, ∅, AList.insert 10 ⟨none, none, some "finish"⟩ ∅⟩
  accepted := rfl
  objects _ := ⟨[], [], .state [], rfl⟩
  states := AList.singleton "idle" 0
  unreserved := by
    intro name hn
    rw [AList.mem_keys, AList.keys_singleton, mem_singleton] at hn
    subst hn
    decide
  initial := some 0

/-- The timeout of ten seconds on `any` is registered, but no state has a timer for it. -/
theorem timeout_never_armed : tenSeconds.HasInitial ∧
      tenSeconds.considered 0 (.timeout 10) = [⟨none, none, some "finish"⟩] ∧
      (∃ len m, tenSeconds.compile len = .ok m) ∧
      ¬∃ len m c, tenSeconds.compile len = .ok m ∧ c ∈ m.states ∧ c.armed 10 ≠ [] := by
  have hd : tenSeconds.HasInitial := ⟨0, mem_singleton_self 0, rfl⟩
  obtain ⟨len⟩ : Nonempty (Lua.Length ℚ (StateAction Unit)) := inferInstance
  refine ⟨hd, ?_, ⟨len, exists_compile hd len⟩, ?_⟩
  · simp [considered, registered, tenSeconds]
  · rintro ⟨len, m, c, hm, hc, hne⟩
    obtain ⟨s, hs⟩ := mem_iff_getElem?.1 hc
    apply hne
    rw [(state_at hm hs).2, timeoutsAt, defaulted_timeouts]
    have hpairs : tenSeconds.defaults.timeouts.ipairs = [] := rfl
    rw [Lua.Table.append_eq_id len hpairs, Function.iterate_id]
    rfl

end Haka
