import Haka.Timer.Realm

/-!
# Dispatch of the timers

One check of a time realm, for any behaviour of the callbacks. The loop holds the timer that is next
in the list while a callback runs. If no callback destroys that timer, stops it while it is due, or
restarts it while others are due, then every timer that is due when its turn comes is called once, in
the order of the trigger times, and the list is left sorted with exactly the timers that run. In all
other cases the check faults or leaves a timer that is due without a call.
-/

namespace Haka

open List Realm

/-! ## Lists ordered by a key -/

section Keys

variable {α : Type*} {R : α → α → Prop} [DecidableRel R] {key : α → ℤ} {x : α} {l : List α}

theorem pairwise_orderedInsert (hR : ∀ a b, R a b ↔ key a < key b)
    (h : l.Pairwise fun a b => key a ≤ key b) :
    (l.orderedInsert R x).Pairwise fun a b => key a ≤ key b := by
  induction l with
  | nil => exact pairwise_singleton _ _
  | cons y l ih =>
    obtain ⟨hy, hl⟩ := pairwise_cons.1 h
    rw [orderedInsert]
    split_ifs with hxy
    · have hlt := (hR x y).1 hxy
      refine pairwise_cons.2 ⟨fun z hz => ?_, h⟩
      rcases mem_cons.1 hz with rfl | hz
      · exact hlt.le
      · exact hlt.le.trans (hy z hz)
    · have hle : key y ≤ key x := not_lt.1 fun h0 => hxy ((hR x y).2 h0)
      refine pairwise_cons.2 ⟨fun z hz => ?_, ih hl⟩
      rcases (mem_orderedInsert R).1 hz with rfl | hz
      · exact hle
      · exact hy z hz

theorem filter_orderedInsert {p : α → Bool} (hx : p x = false) :
    (l.orderedInsert R x).filter p = l.filter p := by
  induction l with
  | nil => simp [hx]
  | cons y l ih =>
    rw [orderedInsert]
    split_ifs
    · rw [filter_cons_of_neg (by simp [hx])]
    · rw [filter_cons, filter_cons, ih]

theorem cons_of_sublist {b : α} {m : List α} (h : l.Sublist (b :: m)) (hb : b ∈ l)
    (hm : b ∉ m) : ∃ l', l = b :: l' := by
  cases h with
  | cons _ h => exact absurd (h.subset hb) hm
  | cons_cons _ h => exact ⟨_, rfl⟩

end Keys

/-! ## The realm -/

namespace Realm

/-- The list is sorted by trigger time, and exactly the timers that run are in it or parked. -/
structure Wf (r : Realm) : Prop where
  sorted : r.sorted.Pairwise fun a b => (r.trigger a).ns ≤ (r.trigger b).ns
  nodup : (r.sorted ++ r.parked).Nodup
  armed : ∀ x, x ∈ r.sorted ++ r.parked ↔ ∃ t, r.timers x = some t ∧ t.armed = true

def isDue (r : Realm) (x : ℕ) : Bool := timeCmp (r.trigger x) r.time ≠ .gt

def due (r : Realm) : List ℕ := r.sorted.filter r.isDue

/-- What the operations on timers do: they make no timer due. -/
structure Calms (r r' : Realm) : Prop where
  time : r'.time = r.time
  due : r'.due.Sublist r.due
  timers : ∀ x ∈ r'.due, r'.timers x = r.timers x
  parked : ∀ x ∈ r'.parked, x ∈ r.parked

theorem Calms.refl (r : Realm) : Calms r r := ⟨rfl, .refl _, fun _ _ => rfl, fun _ h => h⟩

theorem Calms.trans {r1 r2 r3 : Realm} (h : Calms r1 r2) (h' : Calms r2 r3) : Calms r1 r3 :=
  ⟨h'.time.trans h.time, h'.due.trans h.due,
    fun x hx => (h'.timers x hx).trans (h.timers x (h'.due.subset hx)),
    fun x hx => h.parked x (h'.parked x hx)⟩

variable {r : Realm} {x y : ℕ} {t : Timer}

theorem isDue_iff : r.isDue x = true ↔ (r.trigger x).ns ≤ r.time.ns := by
  unfold isDue
  rw [decide_eq_true_iff, ne_eq, timeCmp_eq_gt, not_lt]

theorem trigger_of (h : r.timers x = some t) : r.trigger x = t.triggerTime := by
  unfold trigger
  rw [h]
  rfl

theorem trigger_setTimer (o : Option Timer) (h : y ≠ x) : (r.setTimer x o).trigger y = r.trigger y := by
  unfold trigger setTimer
  dsimp only
  rw [Function.update_of_ne h]

@[simp] theorem timers_setTimer (o : Option Timer) : (r.setTimer x o).timers x = o :=
  Function.update_self ..

theorem timers_setTimer_of_ne (o : Option Timer) (h : y ≠ x) : (r.setTimer x o).timers y = r.timers y :=
  Function.update_of_ne h ..

theorem due_setTimer (o : Option Timer) (hx : x ∉ r.sorted) : (r.setTimer x o).due = r.due := by
  refine filter_congr fun y hy => ?_
  unfold isDue
  rw [trigger_setTimer o (fun h : y = x => hx (h ▸ hy))]
  rfl

theorem Calms.setTimer (o : Option Timer) (hx : x ∉ r.sorted) : Calms r (r.setTimer x o) := by
  refine ⟨rfl, by rw [due_setTimer o hx], fun y hy => ?_, fun _ h => h⟩
  refine timers_setTimer_of_ne o fun h => hx ?_
  exact h ▸ mem_of_mem_filter hy

theorem Wf.sorted_setTimer (h : r.Wf) (o : Option Timer) (hx : x ∉ r.sorted) :
    r.sorted.Pairwise fun a b => ((r.setTimer x o).trigger a).ns ≤ ((r.setTimer x o).trigger b).ns := by
  refine h.sorted.imp_of_mem fun {a b} ha hb hab => ?_
  rwa [trigger_setTimer o (fun h : a = x => hx (h ▸ ha)),
    trigger_setTimer o (fun h : b = x => hx (h ▸ hb))]

theorem Wf.setTime (h : r.Wf) (time : Time) : Wf { r with time := time } :=
  ⟨h.sorted, h.nodup, h.armed⟩

theorem Wf.exists_of_mem (h : r.Wf) (hx : x ∈ r.sorted) : ∃ t, r.timers x = some t ∧ t.armed = true :=
  (h.armed x).1 (mem_append_left _ hx)

theorem Wf.setTimer (h : r.Wf) {o : Option Timer} (hx : x ∉ r.sorted ++ r.parked)
    (ho : ∀ t ∈ o, t.armed = false) : (r.setTimer x o).Wf := by
  refine ⟨h.sorted_setTimer o fun h0 => hx (mem_append_left _ h0), h.nodup, fun y => ?_⟩
  by_cases hy : y = x
  · subst hy
    rw [timers_setTimer]
    refine ⟨fun h0 => absurd h0 hx, fun ⟨t, ht, harm⟩ => ?_⟩
    rw [ho t ht] at harm
    cases harm
  · rw [timers_setTimer_of_ne o hy]
    exact h.armed y

theorem Wf.not_mem_of_none (h : r.Wf) (ht : r.timers x = none) : x ∉ r.sorted ++ r.parked := by
  intro h0
  obtain ⟨t, ht', -⟩ := (h.armed x).1 h0
  cases ht.symm.trans ht'

/-! ## The operations -/

theorem timerStop_spec (h : r.Wf) (x : ℕ) : (r.timerStop x).Wf ∧ Calms r (r.timerStop x) ∧
    x ∉ (r.timerStop x).sorted ++ (r.timerStop x).parked := by
  unfold timerStop
  cases ht : r.timers x with
  | none => exact ⟨h, .refl r, h.not_mem_of_none ht⟩
  | some t =>
    dsimp only
    cases ha : t.armed with
    | false =>
      refine ⟨h, .refl r, fun hx => ?_⟩
      obtain ⟨t', ht', harm⟩ := (h.armed x).1 hx
      obtain rfl : t = t' := Option.some.inj (ht.symm.trans ht')
      rw [ha] at harm
      cases harm
    | true =>
      rw [if_neg (by simp)]
      set r' : Realm := { r.setTimer x (some { t with armed := false }) with
        sorted := r.sorted.erase x, parked := r.parked.erase x } with hr'
      have hself : r'.timers x = some { t with armed := false } := timers_setTimer _
      have htrig : r'.trigger = r.trigger := by
        funext y
        by_cases hy : y = x
        · rw [hy, trigger_of ht, trigger_of hself]
        · exact trigger_setTimer _ hy
      have hsub : (r'.sorted ++ r'.parked).Sublist (r.sorted ++ r.parked) :=
        erase_sublist.append erase_sublist
      have hx : x ∉ r'.sorted ++ r'.parked := fun hx => by
        obtain ⟨h1, h2, -⟩ := nodup_append.1 h.nodup
        rcases mem_append.1 hx with hx | hx
        · exact h1.not_mem_erase hx
        · exact h2.not_mem_erase hx
      refine ⟨⟨?_, h.nodup.sublist hsub, fun y => ?_⟩, ⟨rfl, ?_, fun y hy => ?_, ?_⟩, hx⟩
      · rw [htrig]
        exact h.sorted.sublist erase_sublist
      · by_cases hy : y = x
        · subst hy
          refine ⟨fun h0 => absurd h0 hx, fun ⟨t', ht', harm⟩ => ?_⟩
          cases hself.symm.trans ht'
          cases harm
        · have hmem : y ∈ r'.sorted ++ r'.parked ↔ y ∈ r.sorted ++ r.parked := by
            simp only [hr', mem_append, mem_erase_of_ne hy]
          rw [hmem, h.armed y]
          exact ⟨fun h0 => (timers_setTimer_of_ne _ hy).symm ▸ h0,
            fun h0 => timers_setTimer_of_ne _ hy ▸ h0⟩
      · unfold due isDue
        rw [htrig]
        exact erase_sublist.filter _
      · refine timers_setTimer_of_ne _ fun h0 => hx ?_
        exact mem_append_left _ (h0 ▸ mem_of_mem_filter hy)
      · exact fun y hy => mem_of_mem_erase hy

theorem trigger_lt (r : Realm) (a b : ℕ) :
    timeCmp (r.trigger a) (r.trigger b) = .lt ↔ (r.trigger a).ns < (r.trigger b).ns :=
  timeCmp_eq_lt

theorem sorted_insert (h : r.sorted.Pairwise fun a b => (r.trigger a).ns ≤ (r.trigger b).ns) :
    (r.timeRealmInsertTimer x).sorted.Pairwise fun a b => (r.trigger a).ns ≤ (r.trigger b).ns :=
  pairwise_orderedInsert r.trigger_lt h

theorem perm_insert (r : Realm) (x : ℕ) : (r.timeRealmInsertTimer x).sorted.Perm (x :: r.sorted) :=
  perm_orderedInsert _ _ _

theorem arm_spec (h : r.Wf) (hx : x ∉ r.sorted ++ r.parked) (ht : t.armed = true)
    (hlate : r.time.ns < t.triggerTime.ns) :
    ((r.setTimer x (some t)).timeRealmInsertTimer x).Wf ∧
    Calms r ((r.setTimer x (some t)).timeRealmInsertTimer x) := by
  have hxs : x ∉ r.sorted := fun h0 => hx (mem_append_left _ h0)
  have hself : (r.setTimer x (some t)).timers x = some t := timers_setTimer _
  have hperm : (((r.setTimer x (some t)).timeRealmInsertTimer x).sorted ++
      ((r.setTimer x (some t)).timeRealmInsertTimer x).parked).Perm (x :: (r.sorted ++ r.parked)) :=
    (perm_insert _ x).append_right r.parked
  have hdue : ((r.setTimer x (some t)).timeRealmInsertTimer x).due = r.due := by
    rw [← due_setTimer (some t) hxs]
    refine filter_orderedInsert (p := (r.setTimer x (some t)).isDue) ?_
    rw [← Bool.not_eq_true, isDue_iff, trigger_of hself]
    exact not_le.2 hlate
  refine ⟨⟨sorted_insert (h.sorted_setTimer _ hxs), ?_, fun y => ?_⟩, ⟨rfl, ?_, fun y hy => ?_, ?_⟩⟩
  · exact hperm.nodup_iff.2 (nodup_cons.2 ⟨hx, h.nodup⟩)
  · rw [hperm.mem_iff, mem_cons]
    by_cases hy : y = x
    · subst hy
      exact ⟨fun _ => ⟨t, hself, ht⟩, fun _ => .inl rfl⟩
    · rw [show ((r.setTimer x (some t)).timeRealmInsertTimer x).timers y = r.timers y from
        timers_setTimer_of_ne _ hy, ← h.armed y]
      exact ⟨fun h0 => h0.resolve_left hy, .inr⟩
  · rw [hdue]
  · rw [hdue] at hy
    exact timers_setTimer_of_ne _ fun h0 => hxs (h0 ▸ mem_of_mem_filter hy)
  · exact fun _ h0 => h0

theorem ns_pos_of_delay {delay : Delay} (h : ¬(delay.secs = 0 ∧ delay.nsecs = 0)) :
    0 < delay.toTime.ns := by
  have hnn := delay.nonneg
  unfold Time.ns secToNsec
  omega

/-- **One operation** on timers. -/
theorem apply_spec (h : r.Wf) (op : TimerOp) : (r.apply op).Wf ∧ Calms r (r.apply op) := by
  cases op with
  | create x =>
    show (r.timeRealmTimer x).Wf ∧ Calms r (r.timeRealmTimer x)
    unfold timeRealmTimer
    cases ht : r.timers x with
    | some t => exact ⟨h, .refl r⟩
    | none =>
      have hx := h.not_mem_of_none ht
      refine ⟨h.setTimer hx fun t ht => ?_, .setTimer _ fun h0 => hx (mem_append_left _ h0)⟩
      cases ht
      rfl
  | start x delay repeats =>
    show (r.timerStart x delay repeats).Wf ∧ Calms r (r.timerStart x delay repeats)
    unfold timerStart
    cases ht : r.timers x with
    | none => exact ⟨h, .refl r⟩
    | some t =>
      obtain ⟨hwf, hcalm, hx⟩ := timerStop_spec h x
      split_ifs with hd
      · exact ⟨h, .refl r⟩
      · have hpos := ns_pos_of_delay hd
        have hlate : (r.timerStop x).time.ns < (timeAdd r.time delay.toTime).ns := by
          rw [hcalm.time, ns_timeAdd]
          omega
        obtain ⟨hwf', hcalm'⟩ := arm_spec hwf hx (t := ⟨true, repeats, _, delay⟩) rfl hlate
        exact ⟨hwf', hcalm.trans hcalm'⟩
  | stop x => exact ⟨(timerStop_spec h x).1, (timerStop_spec h x).2.1⟩
  | destroy x =>
    obtain ⟨hwf, hcalm, hx⟩ := timerStop_spec h x
    exact ⟨hwf.setTimer hx fun t ht => (by cases ht),
      hcalm.trans (.setTimer _ fun h0 => hx (mem_append_left _ h0))⟩

theorem foldl_apply_spec (h : r.Wf) (ops : List TimerOp) :
    (ops.foldl apply r).Wf ∧ Calms r (ops.foldl apply r) := by
  induction ops generalizing r with
  | nil => exact ⟨h, .refl r⟩
  | cons op ops ih =>
    obtain ⟨hwf, hcalm⟩ := apply_spec h op
    obtain ⟨hwf', hcalm'⟩ := ih hwf
    exact ⟨hwf', hcalm.trans hcalm'⟩

/-! ## The first timer -/

variable {rest : List ℕ}

theorem due_cons (hs : r.sorted = x :: rest) (hx : r.isDue x = true) :
    r.due = x :: rest.filter r.isDue := by
  unfold due
  rw [hs, filter_cons_of_pos hx]

theorem Wf.due_eq_nil (h : r.Wf) (hs : r.sorted = x :: rest) (hx : r.isDue x = false) :
    r.due = [] := by
  refine filter_eq_nil_iff.2 fun y hy hdue => ?_
  have hle : (r.trigger x).ns ≤ (r.trigger y).ns := by
    have hsorted := h.sorted
    rw [hs] at hy hsorted
    rcases mem_cons.1 hy with rfl | hy
    · exact le_refl _
    · exact (pairwise_cons.1 hsorted).1 y hy
  rw [← Bool.not_eq_true, isDue_iff] at hx
  exact hx (hle.trans (isDue_iff.1 hdue))

theorem Wf.head_of_due (h : r.Wf) {l : List ℕ} (hd : r.due = x :: l) : r.sorted.head? = some x := by
  cases hs : r.sorted with
  | nil =>
    unfold due at hd
    rw [hs] at hd
    cases hd
  | cons y rest =>
    cases hy : r.isDue y with
    | true =>
      rw [due_cons hs hy] at hd
      cases hd
      rfl
    | false =>
      rw [h.due_eq_nil hs hy] at hd
      cases hd

/-- The first timer is taken from the list, and parked if it is still armed. -/
theorem unlink_spec (h : r.Wf) (hs : r.sorted = x :: rest) {r' : Realm}
    (hr : r' = { r.setTimer x (some t) with
      sorted := rest, parked := if t.armed then r.parked ++ [x] else r.parked }) :
    r'.Wf ∧ r'.due = rest.filter r.isDue ∧ ∀ y ∈ r'.due, r'.timers y = r.timers y := by
  have hnodup := h.nodup
  have hsorted := h.sorted
  rw [hs] at hnodup hsorted
  have hx : x ∉ rest ++ r.parked := (nodup_cons.1 hnodup).1
  have hxr : x ∉ rest := fun h0 => hx (mem_append_left _ h0)
  have hne : ∀ y ∈ rest, y ≠ x := fun y hy h0 => hxr (h0 ▸ hy)
  have hself : r'.timers x = some t := by rw [hr]; exact timers_setTimer _
  have hother : ∀ y, y ≠ x → r'.timers y = r.timers y := fun y hy => by
    rw [hr]
    exact timers_setTimer_of_ne _ hy
  have htrig : ∀ y, y ≠ x → r'.trigger y = r.trigger y := fun y hy => by
    unfold trigger
    rw [hother y hy]
  have hsort' : r'.sorted = rest := by rw [hr]
  have hdue : r'.due = rest.filter r.isDue := by
    unfold due
    rw [hsort']
    refine filter_congr fun y hy => ?_
    unfold isDue
    rw [htrig y (hne y hy), show r'.time = r.time by rw [hr]; rfl]
  have hmem : ∀ y, y ≠ x → (y ∈ r'.sorted ++ r'.parked ↔ y ∈ r.sorted ++ r.parked) := fun y hy => by
    rw [hr, hs]
    cases t.armed <;> simp [hy]
  refine ⟨⟨?_, ?_, fun y => ?_⟩, hdue, fun y hy => ?_⟩
  · rw [hsort']
    refine (pairwise_cons.1 hsorted).2.imp_of_mem fun {a b} ha hb hab => ?_
    rwa [htrig a (hne a ha), htrig b (hne b hb)]
  · rw [hr]
    cases t.armed with
    | false => exact (nodup_cons.1 hnodup).2
    | true =>
      have hperm : (rest ++ (r.parked ++ [x])).Perm (x :: (rest ++ r.parked)) := by
        rw [← append_assoc]
        exact perm_append_singleton _ _
      exact hperm.nodup_iff.2 hnodup
  · by_cases hy : y = x
    · subst hy
      rw [hself, hr]
      cases ht : t.armed with
      | false =>
        have hxp : y ∉ r.parked := fun h0 => hx (mem_append_right _ h0)
        simp [hxr, hxp, ht]
      | true => simp [ht]
    · rw [hmem y hy, hother y hy]
      exact h.armed y
  · rw [hdue] at hy
    exact hother y (hne y (mem_of_mem_filter hy))

end Realm

theorem Timer.advance_armed (t : Timer) (current : Time) :
    (t.advance current).1.armed = (t.armed && t.repeats) := by
  unfold advance
  split_ifs with h <;> simp [h]

namespace Dispatch

/-! ## The calls of a check -/

/-- During a check at the time `c`: the calls came in the order of the trigger times, each timer was
armed and due at its call and called once, and the due timers in the list have not been called and
do not trigger before those that have. -/
structure Inv (c : Time) (d : Dispatch) : Prop where
  wf : d.toRealm.Wf
  time : d.time = c
  order : d.calls.Pairwise fun k k' => k'.turn.triggerTime.ns ≤ k.turn.triggerTime.ns
  once : (d.calls.map Call.timer).Nodup
  turn : ∀ k ∈ d.calls, k.turn.armed = true ∧ k.turn.triggerTime.ns ≤ c.ns
  past : ∀ k ∈ d.calls, ∀ x ∈ d.due, k.timer ≠ x ∧ k.turn.triggerTime.ns ≤ (d.trigger x).ns
  parked : ∀ x ∈ d.parked, x ∈ d.calls.map Call.timer

variable {callbacks : Callbacks} {c : Time} {d : Dispatch} {x : ℕ} {t : Timer} {rest : List ℕ}

/-- **One turn** of the loop. -/
theorem fire_spec (callbacks : Callbacks) (h : Inv c d) (hs : d.sorted = x :: rest) (ht : d.timers x = some t)
    (hx : d.isDue x = true) :
    Inv c (d.fire callbacks c x t) ∧ (d.fire callbacks c x t).due.Sublist (rest.filter d.isDue) ∧
    ∀ y ∈ (d.fire callbacks c x t).parked, y = x ∨ y ∈ d.parked := by
  obtain ⟨t0, ht0, harmed⟩ := h.wf.exists_of_mem (by rw [hs]; exact mem_cons_self)
  obtain rfl : t = t0 := Option.some.inj (ht.symm.trans ht0)
  have hdue : d.due = x :: rest.filter d.isDue := due_cons hs hx
  have htrig : d.trigger x = t.triggerTime := trigger_of ht
  -- the realm when the callback is called
  obtain ⟨r, hr⟩ : ∃ r : Realm, r = { d.toRealm.setTimer x (some (t.advance c).1) with
      sorted := d.sorted.erase x, parked := if t.repeats then d.parked ++ [x] else d.parked } := ⟨_, rfl⟩
  have hfire : d.fire callbacks c x t =
      ⟨(callbacks (⟨x, t, (t.advance c).2⟩ :: d.calls)).foldl apply r,
        ⟨x, t, (t.advance c).2⟩ :: d.calls⟩ := by
    rw [hr]
    rfl
  have hunlink : r = { d.toRealm.setTimer x (some (t.advance c).1) with
      sorted := rest, parked := if (t.advance c).1.armed then d.parked ++ [x] else d.parked } := by
    rw [hr, hs, erase_cons_head, Timer.advance_armed, harmed, Bool.true_and]
  obtain ⟨hwf, hrdue, hrtimers⟩ := unlink_spec h.wf hs hunlink
  obtain ⟨hwf', hcalm⟩ := foldl_apply_spec hwf (callbacks (⟨x, t, (t.advance c).2⟩ :: d.calls))
  rw [hfire]
  generalize (callbacks (⟨x, t, (t.advance c).2⟩ :: d.calls)).foldl apply r = r' at hwf' hcalm
  have hsub : r'.due.Sublist (rest.filter d.isDue) := hrdue ▸ hcalm.due
  have hparked : ∀ y ∈ r'.parked, y = x ∨ y ∈ d.parked := fun y hy => by
    have hy := hcalm.parked y hy
    rw [hr] at hy
    split_ifs at hy
    · rcases mem_append.1 hy with hy | hy
      · exact .inr hy
      · exact .inl (mem_singleton.1 hy)
    · exact .inr hy
  have hkept : ∀ y ∈ r'.due, r'.trigger y = d.trigger y := fun y hy => by
    unfold trigger
    rw [hcalm.timers y hy, hrtimers y (hcalm.due.subset hy)]
  have hpast := fun k hk => h.past k hk x (by rw [hdue]; exact mem_cons_self)
  have hnodup := h.wf.nodup
  have hsorted := h.wf.sorted
  rw [hs] at hnodup hsorted
  refine ⟨⟨hwf', ?_, ?_, ?_, ?_, ?_, ?_⟩, hsub, hparked⟩
  · rw [hcalm.time, hr]
    exact h.time
  · exact pairwise_cons.2 ⟨fun k hk => htrig ▸ (hpast k hk).2, h.order⟩
  · refine nodup_cons.2 ⟨fun h0 => ?_, h.once⟩
    obtain ⟨k, hk, hkx⟩ := mem_map.1 h0
    exact (hpast k hk).1 hkx
  · intro k hk
    rcases mem_cons.1 hk with rfl | hk
    · refine ⟨harmed, ?_⟩
      rw [← htrig, ← h.time]
      exact isDue_iff.1 hx
    · exact h.turn k hk
  · intro k hk y hy
    have hyr := hsub.subset hy
    have hyrest := mem_of_mem_filter hyr
    rw [hkept y hy]
    rcases mem_cons.1 hk with rfl | hk
    · refine ⟨fun h0 : x = y => (nodup_cons.1 hnodup).1 ?_, ?_⟩
      · exact mem_append_left _ (h0 ▸ hyrest)
      exact htrig ▸ (pairwise_cons.1 hsorted).1 y hyrest
    · exact h.past k hk y (by rw [hdue]; exact mem_cons_of_mem _ hyr)
  · intro y hy
    rcases hparked y hy with rfl | hy
    · exact mem_cons_self
    · exact mem_cons_of_mem _ (h.parked y hy)

/-! ## Callbacks that leave the next timer alone -/

/-- What a callback leaves of the timer that was `next` in the list: it is not destroyed, not
stopped if it is due, and if it is not due no other timer is. -/
def Undisturbed (c : Time) (next : Option ℕ) (d : Dispatch) : Prop :=
  match next with
  | none => True
  | some y =>
    match d.timers y with
    | none => False
    | some t => if timeCmp t.triggerTime c ≠ .gt then t.armed = true else d.due = []

instance decidableUndisturbed (c : Time) (next : Option ℕ) (d : Dispatch) :
    Decidable (Undisturbed c next d) :=
  match next with
  | none => isTrue trivial
  | some y =>
    match h : d.timers y with
    | none => isFalse (by simp [Undisturbed, h])
    | some t => decidable_of_iff (if timeCmp t.triggerTime c ≠ .gt then t.armed = true else d.due = [])
        (by simp [Undisturbed, h])

/-- The timers that are due are taken one after the other from the head of the list, at most `n` of
them, and each callback leaves the next timer alone. -/
def Orderly (callbacks : Callbacks) (c : Time) : ℕ → Dispatch → Prop
  | 0, _ => True
  | n + 1, d =>
    match d.sorted with
    | [] => True
    | x :: rest =>
      match d.timers x with
      | none => True
      | some t =>
        if timeCmp t.triggerTime c ≠ .gt then
          Undisturbed c rest.head? (d.fire callbacks c x t) ∧
            Orderly callbacks c n (d.fire callbacks c x t)
        else True

instance decidableOrderly (callbacks : Callbacks) (c : Time) :
    ∀ (n : ℕ) (d : Dispatch), Decidable (Orderly callbacks c n d)
  | 0, _ => isTrue trivial
  | n + 1, d =>
    match hs : d.sorted with
    | [] => isTrue (by rw [Orderly, hs]; trivial)
    | x :: rest =>
      match ht : d.timers x with
      | none => isTrue (by rw [Orderly, hs]; dsimp only; rw [ht]; trivial)
      | some t =>
        haveI := decidableOrderly callbacks c n (d.fire callbacks c x t)
        decidable_of_iff (if timeCmp t.triggerTime c ≠ .gt then
          Undisturbed c rest.head? (d.fire callbacks c x t) ∧
            Orderly callbacks c n (d.fire callbacks c x t) else True)
          (by rw [Orderly, hs]; dsimp only; rw [ht])

theorem listNext_head (x : ℕ) (rest : List ℕ) : listNext (x :: rest) x = rest.head? := by
  unfold listNext
  rw [dropWhile_cons_of_neg (by simp)]
  rfl

theorem orderly_of_due_nil (h : Inv c d) (hd : d.due = []) (n : ℕ) : Orderly callbacks c n d := by
  cases n with
  | zero => trivial
  | succ n =>
    unfold Orderly
    cases hs : d.sorted with
    | nil => trivial
    | cons x rest =>
      obtain ⟨t, ht, -⟩ := h.wf.exists_of_mem (by rw [hs]; exact mem_cons_self)
      have hx : d.isDue x = false := by
        by_contra h0
        rw [due_cons hs (by simpa using h0)] at hd
        cases hd
      simp only [isDue, trigger_of ht, h.time] at hx
      dsimp only
      rw [ht]
      dsimp only
      rw [if_neg (of_decide_eq_false hx)]
      trivial

/-- The loop keeps the invariant and what each turn keeps, and returns with no due timer left
exactly if the callbacks leave the next timers alone. -/
structure Outcome (c : Time) (P : Dispatch → Prop) (result : Option Dispatch) (orderly : Prop) :
    Prop where
  inv : ∀ d ∈ result, Inv c d ∧ P d
  served : (∃ d ∈ result, d.due = []) ↔ orderly

section Loop

variable {P : Dispatch → Prop}

theorem outcome_none : Outcome c P none False :=
  ⟨fun _ h => (by cases h), fun ⟨_, h, _⟩ => (by cases h), False.elim⟩

theorem outcome_some (h : Inv c d) (hp : P d) : Outcome c P (some d) (d.due = []) :=
  ⟨fun _ h' => Option.some.inj h' ▸ ⟨h, hp⟩, fun ⟨_, h', hd⟩ => Option.some.inj h' ▸ hd,
    fun hd => ⟨d, rfl, hd⟩⟩

theorem outcome_done (h : Inv c d) (hp : P d) (hd : d.due = []) (k : ℕ) :
    Outcome c P (some d) (Orderly callbacks c k d) := by
  rw [show Orderly callbacks c k d = (d.due = []) from
    propext ⟨fun _ => hd, fun _ => orderly_of_due_nil h hd k⟩]
  exact outcome_some h hp

/-- The loop goes on with the timer that was next in the list, `rest`, before the callback. -/
theorem resume_outcome {n k : ℕ} {p : ℕ → Bool} (h : Inv c d) (hp : P d)
    (hsub : d.due.Sublist (rest.filter p)) (hrest : rest.Nodup) (hparked : ∀ y ∈ rest, y ∉ d.parked)
    (ih : Outcome c P (checkLoop callbacks c (n + 1) d d.sorted.head?) (Orderly callbacks c k d)) :
    Outcome c P (checkLoop callbacks c (n + 1) d rest.head?)
      (Undisturbed c rest.head? d ∧ Orderly callbacks c k d) := by
  have horderly : (d.due = [] ∧ Orderly callbacks c k d) = (d.due = []) :=
    propext ⟨And.left, fun h0 => ⟨h0, orderly_of_due_nil h h0 k⟩⟩
  cases rest with
  | nil =>
    have hd : d.due = [] := sublist_nil.1 hsub
    rw [show Undisturbed c ([] : List ℕ).head? d = (d.due = []) from
      propext ⟨fun _ => hd, fun _ => trivial⟩, horderly]
    exact outcome_some h hp
  | cons y rest =>
    rw [head?_cons, checkLoop]
    unfold Undisturbed
    dsimp only
    cases ht : d.timers y with
    | none =>
      rw [show (False ∧ Orderly callbacks c k d) = False from false_and _]
      exact outcome_none
    | some t =>
      dsimp only
      by_cases hy : timeCmp t.triggerTime c ≠ .gt
      swap
      · rw [if_neg hy, if_neg hy, horderly]
        exact outcome_some h hp
      rw [if_pos hy, if_pos hy]
      have hmem : y ∈ d.sorted ↔ t.armed = true := by
        refine ⟨fun h0 => ?_, fun h0 => ?_⟩
        · obtain ⟨t', ht', harm⟩ := h.wf.exists_of_mem h0
          rwa [Option.some.inj (ht.symm.trans ht')]
        · have hlist := (h.wf.armed y).2 ⟨t, ht, h0⟩
          exact (mem_append.1 hlist).resolve_right (hparked y mem_cons_self)
      cases ha : t.armed with
      | false =>
        -- its links are NULL
        rw [if_neg (by rw [hmem, ha]; decide),
          show ((false = true) ∧ Orderly callbacks c k d) = False by simp]
        exact outcome_none
      | true =>
        -- it is still the first of the list
        have hdue : y ∈ d.due := mem_filter.2 ⟨hmem.2 ha, by
          unfold isDue
          rw [trigger_of ht, h.time]
          exact decide_eq_true hy⟩
        have hhead : d.sorted.head? = some y := by
          have hyp : p y = true := of_mem_filter (hsub.subset hdue)
          rw [filter_cons_of_pos hyp] at hsub
          obtain ⟨l, hl⟩ := cons_of_sublist hsub hdue fun h0 =>
            (nodup_cons.1 hrest).1 (mem_of_mem_filter h0)
          exact h.wf.head_of_due hl
        rw [hhead, checkLoop, ht] at ih
        dsimp only at ih
        rw [if_pos hy] at ih
        rwa [show ((true = true) ∧ Orderly callbacks c k d) = Orderly callbacks c k d by simp]

theorem checkLoop_outcome (callbacks : Callbacks) (n k : ℕ)
    (hP : ∀ d x rest t, Inv c d → P d → d.sorted = x :: rest → d.timers x = some t →
      d.isDue x = true → P (d.fire callbacks c x t))
    (h : Inv c d) (hp : P d) (hn : d.due.length < n) (hk : d.due.length ≤ k) :
    Outcome c P (checkLoop callbacks c n d d.sorted.head?) (Orderly callbacks c k d) := by
  induction n generalizing d k with
  | zero => cases hn
  | succ n ih =>
    cases hs : d.sorted with
    | nil =>
      refine outcome_done h hp ?_ k
      unfold due
      rw [hs]
      rfl
    | cons x rest =>
      obtain ⟨t, ht, -⟩ := h.wf.exists_of_mem (by rw [hs]; exact mem_cons_self)
      have hx : d.isDue x = decide (timeCmp t.triggerTime c ≠ .gt) := by
        unfold isDue
        rw [trigger_of ht, h.time]
      rw [head?_cons, checkLoop, ht]
      dsimp only
      by_cases hdue : timeCmp t.triggerTime c ≠ .gt
      · rw [decide_eq_true hdue] at hx
        have hcons := due_cons hs hx
        obtain ⟨h1, hsub, hparked⟩ := fire_spec callbacks h hs ht hx
        have hlen := hsub.length_le
        rw [hcons, length_cons] at hn hk
        obtain ⟨n, rfl⟩ : ∃ m, n = m + 1 := ⟨n - 1, by omega⟩
        obtain ⟨k, rfl⟩ : ∃ m, k = m + 1 := ⟨k - 1, by omega⟩
        have hnodup := h.wf.nodup
        rw [hs] at hnodup
        rw [if_pos hdue, if_pos (by rw [hs]; exact mem_cons_self), hs, listNext_head]
        have horderly : Orderly callbacks c (k + 1) d =
            (Undisturbed c rest.head? (d.fire callbacks c x t) ∧
              Orderly callbacks c k (d.fire callbacks c x t)) := by
          rw [Orderly, hs]
          dsimp only
          rw [ht]
          dsimp only
          rw [if_pos hdue]
        rw [horderly]
        have hp1 := hP d x rest t h hp hs ht hx
        refine resume_outcome h1 hp1 hsub ?_ (fun y hy hyp => ?_) ?_
        · exact (nodup_append.1 (nodup_cons.1 hnodup).2).1
        · rcases hparked y hyp with rfl | hyp
          · exact (nodup_cons.1 hnodup).1 (mem_append_left _ hy)
          · exact (nodup_append.1 (nodup_cons.1 hnodup).2).2.2 y hy y hyp rfl
        · exact ih k h1 hp1 (by omega) (by omega)
      · rw [if_neg hdue]
        rw [decide_eq_false hdue] at hx
        exact outcome_done h hp (h.wf.due_eq_nil hs hx) k

end Loop

/-! ## The whole check -/

theorem foldl_insert (xs : List ℕ) (r : Realm) :
    (xs.foldl timeRealmInsertTimer r).timers = r.timers ∧
    (xs.foldl timeRealmInsertTimer r).time = r.time ∧
    (xs.foldl timeRealmInsertTimer r).sorted.Perm (r.sorted ++ xs) ∧
    ((r.sorted.Pairwise fun a b => (r.trigger a).ns ≤ (r.trigger b).ns) →
      (xs.foldl timeRealmInsertTimer r).sorted.Pairwise
        fun a b => (r.trigger a).ns ≤ (r.trigger b).ns) := by
  induction xs generalizing r with
  | nil => simp
  | cons x xs ih =>
    obtain ⟨htimers, htime, hperm, hsorted⟩ := ih (r.timeRealmInsertTimer x)
    refine ⟨htimers, htime, hperm.trans ?_, fun h => hsorted (sorted_insert h)⟩
    exact ((perm_insert r x).append_right xs).trans perm_middle.symm

/-- **What a check is for**, at the time `c`: the callbacks were called in the order of the trigger
times, each for a timer that was armed and due, none twice; no due timer was not called; and the
list is sorted and holds the timers that run. -/
structure Served (c : Time) (d : Dispatch) : Prop where
  order : d.calls.Pairwise fun k k' => k'.turn.triggerTime.ns ≤ k.turn.triggerTime.ns
  once : (d.calls.map Call.timer).Nodup
  turn : ∀ k ∈ d.calls, k.turn.armed = true ∧ k.turn.triggerTime.ns ≤ c.ns
  all : ∀ x t, d.timers x = some t → t.armed = true → t.triggerTime.ns ≤ c.ns →
    x ∈ d.calls.map Call.timer
  wf : d.toRealm.Wf
  parked : d.parked = []

theorem wf_unpark (h : d.toRealm.Wf) : d.unpark.toRealm.Wf := by
  obtain ⟨htimers, -, hperm, hsorted⟩ := foldl_insert d.parked d.toRealm
  have htrig : d.unpark.trigger = d.trigger := by
    unfold trigger
    rw [show d.unpark.timers = d.timers from htimers]
  have hlist : (d.unpark.sorted ++ d.unpark.parked).Perm (d.sorted ++ d.parked) := by
    rw [show d.unpark.parked = [] from rfl, append_nil]
    exact hperm
  refine ⟨?_, hlist.nodup_iff.2 h.nodup, fun x => ?_⟩
  · rw [htrig]
    exact hsorted h.sorted
  · rw [hlist.mem_iff, h.armed x, show d.unpark.timers = d.timers from htimers]

theorem served_unpark_iff (h : Inv c d) : Served c d.unpark ↔ d.due = [] := by
  have htimers : d.unpark.timers = d.timers := (foldl_insert d.parked d.toRealm).1
  constructor
  · intro hs
    refine eq_nil_iff_forall_not_mem.2 fun x hx => ?_
    obtain ⟨t, ht, harm⟩ := h.wf.exists_of_mem (mem_of_mem_filter hx)
    have hdue := isDue_iff.1 (of_mem_filter hx)
    rw [trigger_of ht, h.time] at hdue
    obtain ⟨k, hk, hkx⟩ := mem_map.1 (hs.all x t (by rw [htimers, ht]) harm hdue)
    exact (h.past k hk x hx).1 hkx
  · intro hd
    refine ⟨h.order, h.once, h.turn, fun x t ht harm hdue => ?_, wf_unpark h.wf, rfl⟩
    rw [htimers] at ht
    rcases mem_append.1 ((h.wf.armed x).2 ⟨t, ht, harm⟩) with hx | hx
    · have hmem : x ∈ d.due := mem_filter.2 ⟨hx, isDue_iff.2 (by
        rwa [trigger_of ht, h.time])⟩
      rw [hd] at hmem
      cases hmem
    · exact h.parked x hx

theorem inv_begin {r : Realm} (hr : r.Wf) (hp : r.parked = []) : Inv r.time ⟨r, []⟩ :=
  ⟨hr, rfl, .nil, .nil, fun _ h => (by cases h), fun _ h => (by cases h), fun x hx => by
    rw [hp] at hx
    cases hx⟩

end Dispatch

/-- **Dispatch.** For every behaviour of the callbacks, a check serves the due timers exactly if no
callback destroys the timer that is next in the list, stops it while it is due, or restarts it while
another timer is due. -/
theorem time_realm_check_serves_iff {r : Realm} (hr : r.Wf) (hp : r.parked = [])
    (callbacks : Callbacks) {fuel : ℕ} (hf : r.sorted.length < fuel) :
    (∃ d, _timeRealmCheck callbacks fuel r = some d ∧ d.Served r.time) ↔
      Dispatch.Orderly callbacks r.time r.sorted.length ⟨r, []⟩ := by
  have hinv := Dispatch.inv_begin hr hp
  have hlen : (⟨r, []⟩ : Dispatch).due.length ≤ r.sorted.length := length_filter_le _ _
  have hout := Dispatch.checkLoop_outcome (P := fun _ => True) callbacks fuel _
    (fun _ _ _ _ _ _ _ _ _ => trivial) hinv trivial (by omega) hlen
  rw [← hout.served]
  constructor
  · rintro ⟨d, hd, hserved⟩
    obtain ⟨d', hd', rfl⟩ := Option.map_eq_some_iff.1 hd
    exact ⟨d', hd', (Dispatch.served_unpark_iff (hout.inv d' hd').1).1 hserved⟩
  · rintro ⟨d, hd, hdue⟩
    exact ⟨d.unpark, Option.map_eq_some_iff.2 ⟨d, hd, rfl⟩,
      (Dispatch.served_unpark_iff (hout.inv d hd).1).2 hdue⟩

def seconds (n : ℕ) : Delay := ⟨⟨n, 0, invalidTime.normal⟩, Int.natCast_nonneg n⟩

def threeTimers : List TimerOp :=
  [.create 0, .create 1, .create 2, .start 0 (seconds 1) true, .start 1 (seconds 2) false,
    .start 2 (seconds 3) false]

def threeDue : Realm :=
  { threeTimers.foldl apply createTimeRealmState with time := (seconds 10).toTime }

theorem wf_create : createTimeRealmState.Wf :=
  ⟨.nil, .nil, fun _ => ⟨fun h => (by cases h), fun ⟨_, h, _⟩ => (by cases h)⟩⟩

theorem wf_threeDue : threeDue.Wf := (foldl_apply_spec wf_create threeTimers).1.setTime _

/-- The first callback stops its own timer and restarts the last, which is not next. -/
theorem time_realm_check_serves_three :
    ∃ d, _timeRealmCheck (fun calls => if calls.length = 1 then [.stop 0, .start 2 (seconds 5) true]
      else []) 4 threeDue = some d ∧ d.Served threeDue.time :=
  (time_realm_check_serves_iff wf_threeDue rfl _ (by decide)).2 (by decide +kernel)

/-- A callback that stops the next timer, as a state machine does when it leaves a state, makes the
check follow a NULL link. One that restarts it makes the check skip the others. -/
theorem time_realm_check_disturbed : threeDue.Wf ∧ threeDue.parked = [] ∧
    (_timeRealmCheck (fun _ => [.stop 1]) 4 threeDue).isNone = true ∧
    (_timeRealmCheck (fun _ => [.start 1 (seconds 5) false]) 4 threeDue).map
      (fun d => (d.calls.map Call.timer, (d.timers 2).map fun t => (t.armed, t.triggerTime.secs))) =
        some ([0], some (true, 3)) :=
  ⟨wf_threeDue, rfl, by decide +kernel, by decide +kernel⟩

end Haka
