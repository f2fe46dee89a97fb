import Haka.Lib.Machine
import Haka.Timer.Dispatch

/-!
# Ticks

A repeating timer triggers at the times `t₀ + k d` for `k ≥ 1`. When a check comes late, its callback
gets the number of ticks since the last one, which is stored in an `int`. As long as this number is
less than `2 ^ 31`, no tick is lost and none is invented, over any run of the realm. The first packet
of a capture moves the clock from zero by more than forty years, which for a delay of half a second
is too many ticks.
-/

namespace Haka

open List Machine

/-! ## Counting ticks -/

def ticks (t₀ : Time) (delay : Delay) (c : Time) : ℤ := (c.ns - t₀.ns) / delay.toTime.ns

def countOf (x : ℕ) (calls : List Call) : ℤ := ((calls.filter (·.timer = x)).map Call.count).sum

@[simp] theorem ticks_self (t₀ : Time) (delay : Delay) : ticks t₀ delay t₀ = 0 := by
  unfold ticks
  rw [sub_self, Int.zero_ediv]

section Ticks

variable {t₀ c : Time} {delay : Delay} (hd : 0 < delay.toTime.ns)

include hd

theorem le_ticks_iff (k : ℤ) : k ≤ ticks t₀ delay c ↔ t₀.ns + k * delay.toTime.ns ≤ c.ns := by
  unfold ticks
  rw [Int.le_ediv_iff_mul_le hd]
  constructor <;> intro h <;> linarith

theorem ncard_ticks (h : t₀.ns ≤ c.ns) :
    ({k : ℕ | 1 ≤ k ∧ t₀.ns + k * delay.toTime.ns ≤ c.ns}.ncard : ℤ) = ticks t₀ delay c := by
  have hnn : 0 ≤ ticks t₀ delay c := Int.ediv_nonneg (by linarith) hd.le
  have hset : {k : ℕ | 1 ≤ k ∧ t₀.ns + k * delay.toTime.ns ≤ c.ns} =
      Finset.Icc 1 (ticks t₀ delay c).toNat := by
    ext k
    show 1 ≤ k ∧ _ ↔ _
    rw [← le_ticks_iff hd, Finset.coe_Icc, Set.mem_Icc]
    omega
  rw [hset, Set.ncard_coe_finset, Nat.card_Icc]
  omega

theorem isLeast_ticks (h : t₀.ns ≤ c.ns) :
    IsLeast {τ : ℤ | ∃ k : ℕ, 1 ≤ k ∧ τ = t₀.ns + k * delay.toTime.ns ∧ c.ns < τ}
      (t₀.ns + (ticks t₀ delay c + 1) * delay.toTime.ns) := by
  have hnn : 0 ≤ ticks t₀ delay c := Int.ediv_nonneg (by linarith) hd.le
  have hlate : ∀ k, c.ns < t₀.ns + k * delay.toTime.ns ↔ ticks t₀ delay c + 1 ≤ k := fun k => by
    rw [← not_le, ← le_ticks_iff hd, not_le, Int.add_one_le_iff]
  constructor
  · refine ⟨(ticks t₀ delay c).toNat + 1, by omega, ?_, (hlate _).2 (le_refl _)⟩
    push_cast
    rw [Int.toNat_of_nonneg hnn]
  · rintro τ ⟨k, -, rfl, hk⟩
    have := (hlate k).1 hk
    gcongr

end Ticks

/-! ## One timer in a check -/

section FollowsSchedule

variable {r : Realm} {x : ℕ} {t : Timer}

theorem Realm.timerStop_timers {y : ℕ} (h : y ≠ x) : (r.timerStop y).timers x = r.timers x := by
  unfold timerStop
  cases r.timers y with
  | none => rfl
  | some t =>
    dsimp only
    split_ifs
    · rfl
    · exact timers_setTimer_of_ne _ h.symm

theorem Realm.apply_timers {op : TimerOp} (h : op.timer ≠ x) :
    (r.apply op).timers x = r.timers x := by
  cases op with
  | create y =>
    show (r.timeRealmTimer y).timers x = r.timers x
    unfold timeRealmTimer
    cases r.timers y with
    | none => exact timers_setTimer_of_ne _ (Ne.symm h)
    | some t => rfl
  | start y delay repeats =>
    show (r.timerStart y delay repeats).timers x = r.timers x
    unfold timerStart
    cases r.timers y with
    | none => rfl
    | some t =>
      split_ifs
      · rfl
      · exact (timers_setTimer_of_ne _ (Ne.symm h)).trans (timerStop_timers h)
  | stop y => exact timerStop_timers h
  | destroy y => exact (timers_setTimer_of_ne _ (Ne.symm h)).trans (timerStop_timers h)

/-- No operation is on the timer `x`. -/
def Spares (x : ℕ) (ops : List TimerOp) : Prop := ∀ op ∈ ops, op.timer ≠ x

theorem Realm.foldl_apply_timers {ops : List TimerOp} (h : Spares x ops) :
    (ops.foldl apply r).timers x = r.timers x := by
  induction ops generalizing r with
  | nil => rfl
  | cons op ops ih =>
    rw [foldl_cons, ih fun o ho => h o (mem_cons_of_mem _ ho), apply_timers (h op mem_cons_self)]

/-- The timer `x`, which was `t`, has not been called, or it has been called once. -/
def FollowsSchedule (x : ℕ) (t : Timer) (c : Time) (d : Dispatch) : Prop :=
  x ∉ d.calls.map Call.timer ∧ d.timers x = some t ∧ countOf x d.calls = 0 ∨
  t.triggerTime.ns ≤ c.ns ∧ x ∈ d.calls.map Call.timer ∧ d.timers x = some (t.advance c).1 ∧
    countOf x d.calls = (t.advance c).2

theorem countOf_cons_self (k : Call) (calls : List Call) (h : k.timer = x) :
    countOf x (k :: calls) = k.count + countOf x calls := by
  unfold countOf
  rw [filter_cons_of_pos (by simpa using h)]
  simp

theorem countOf_cons_of_ne (k : Call) (calls : List Call) (h : k.timer ≠ x) :
    countOf x (k :: calls) = countOf x calls := by
  unfold countOf
  rw [filter_cons_of_neg (by simpa using h)]

variable {callbacks : Callbacks}

theorem follows_fire (hc : ∀ calls, Spares x (callbacks calls)) {c : Time}
    {d : Dispatch} {y : ℕ} {u : Timer} (h : Dispatch.Inv c d) (hf : FollowsSchedule x t c d)
    (hy : y ∈ d.due) (hu : d.timers y = some u) : FollowsSchedule x t c (d.fire callbacks c y u) := by
  have htimers : (d.fire callbacks c y u).timers x =
      (d.toRealm.setTimer y (some (u.advance c).1)).timers x := Realm.foldl_apply_timers (hc _)
  have hcalls : (d.fire callbacks c y u).calls = ⟨y, u, (u.advance c).2⟩ :: d.calls := rfl
  unfold FollowsSchedule
  rw [htimers, hcalls, map_cons, mem_cons]
  by_cases hxy : y = x
  · subst hxy
    rcases hf with ⟨hx, ht, hcount⟩ | ⟨-, hx, -⟩
    · obtain rfl : u = t := Option.some.inj (hu.symm.trans ht)
      refine .inr ⟨?_, .inl rfl, Realm.timers_setTimer _, ?_⟩
      · have hdue := Realm.isDue_iff.1 (of_mem_filter hy)
        rwa [Realm.trigger_of hu, h.time] at hdue
      · exact (countOf_cons_self _ _ rfl).trans (by rw [hcount, add_zero])
    · obtain ⟨k, hk, hkx⟩ := mem_map.1 hx
      exact absurd hkx (h.past k hk y hy).1
  · rw [Realm.timers_setTimer_of_ne _ (Ne.symm hxy), countOf_cons_of_ne _ _ hxy]
    rcases hf with ⟨hx, ht, hcount⟩ | ⟨hdue, hx, ht, hcount⟩
    · exact .inl ⟨fun h0 => h0.elim (fun h1 => hxy h1.symm) hx, ht, hcount⟩
    · exact .inr ⟨hdue, .inr hx, ht, hcount⟩

/-- **A check of a timer** that the callbacks do not touch: it is called once if it is due. -/
theorem check_follows (hr : r.Wf) (hp : r.parked = [])
    (hc : ∀ calls, Spares x (callbacks calls)) (ht : r.timers x = some t) (ha : t.armed = true)
    {fuel : ℕ} (hfuel : r.sorted.length < fuel)
    (ho : Dispatch.Orderly callbacks r.time r.sorted.length ⟨r, []⟩) :
    ∃ d, _timeRealmCheck callbacks fuel r = some d ∧ d.time = r.time ∧ d.toRealm.Wf ∧ d.parked = [] ∧
      (if t.triggerTime.ns ≤ r.time.ns then
        d.timers x = some (t.advance r.time).1 ∧ countOf x d.calls = (t.advance r.time).2
      else d.timers x = some t ∧ countOf x d.calls = 0) := by
  have hlen : (⟨r, []⟩ : Dispatch).due.length ≤ r.sorted.length := length_filter_le _ _
  have hout := Dispatch.checkLoop_outcome callbacks fuel r.sorted.length
    (fun d y rest u h hf hs hu hy => follows_fire hc h hf (by
      rw [Realm.due_cons hs hy]
      exact mem_cons_self) hu)
    (Dispatch.inv_begin hr hp) (.inl ⟨not_mem_nil, ht, rfl⟩) (by omega) hlen
  obtain ⟨d, hd, hdue⟩ := hout.served.2 ho
  obtain ⟨hinv, hf⟩ := hout.inv d hd
  have hserved := (Dispatch.served_unpark_iff hinv).2 hdue
  have htimers : d.unpark.timers = d.timers := (Dispatch.foldl_insert d.parked d.toRealm).1
  have htime : d.unpark.time = d.time := (Dispatch.foldl_insert d.parked d.toRealm).2.1
  refine ⟨d.unpark, ?_, htime.trans hinv.time, hserved.wf, hserved.parked, ?_⟩
  · unfold _timeRealmCheck
    rw [show Dispatch.checkLoop callbacks r.time fuel ⟨r, []⟩ r.sorted.head? = some d from hd]
    rfl
  rw [htimers]
  rcases hf with ⟨hx, htd, hcount⟩ | ⟨hle, -, htd, hcount⟩
  · rw [if_neg fun h0 => hx (hserved.all x t (by rw [htimers, htd]) ha h0)]
    exact ⟨htd, hcount⟩
  · rw [if_pos hle]
    exact ⟨htd, hcount⟩

end FollowsSchedule

/-- The latest time of the realm, in nano-seconds: `2 ^ 33` seconds. -/
def maxNs : ℤ := 2 ^ 33 * secToNsec

/-- **The missed ticks** of a timer whose next tick is the one with number `n + 1`. -/
theorem advance_ticks {t : Timer} {t₀ c : Time} {n : ℤ} (hrep : t.repeats = true) (hn : 0 ≤ n)
    (htrig : t.triggerTime.ns = t₀.ns + (n + 1) * t.delay.toTime.ns) (hd : 0 < t.delay.toTime.ns)
    (h0 : 0 ≤ t₀.ns) (hdue : t.triggerTime.ns ≤ c.ns) (hc : c.ns ≤ maxNs)
    (hlt : ticks t₀ t.delay c - n < 2 ^ 31) :
    (t.advance c).2 = ticks t₀ t.delay c - n ∧
    (t.advance c).1 = { t with triggerTime := (t.advance c).1.triggerTime } ∧
    (t.advance c).1.triggerTime.ns = t₀.ns + (ticks t₀ t.delay c + 1) * t.delay.toTime.ns := by
  have hbig : maxNs < 2 ^ 64 := by
    unfold maxNs
    norm_num
  have hmul : t.delay.toTime.ns ≤ (n + 1) * t.delay.toTime.ns := by nlinarith
  have hge : 0 ≤ ticks t₀ t.delay c - n := by
    have h1 := (le_ticks_iff hd (n + 1)).2 (htrig.symm.trans_le hdue)
    linarith
  have hoffset := ns_timeDiff_of_le hdue
  have hquot : (timeDivide (timeDiff t.triggerTime c).1 t.delay.toTime : ℤ) =
      ticks t₀ t.delay c - n - 1 := by
    rw [timeDivide_of_small (by omega) (by omega) hd.le (by omega), hoffset, htrig]
    have hsplit : c.ns - (t₀.ns + (n + 1) * t.delay.toTime.ns) =
        c.ns - t₀.ns + -(n + 1) * t.delay.toTime.ns := by ring
    rw [hsplit, Int.add_mul_ediv_right _ _ hd.ne']
    unfold ticks
    ring
  obtain ⟨count, hdef⟩ : ∃ count : Int32,
      count = .ofNat (timeDivide (timeDiff t.triggerTime c).1 t.delay.toTime + 1) := ⟨_, rfl⟩
  have hcount : count.toInt = ticks t₀ t.delay c - n := by
    rw [hdef, (toInt_ofNat_iff _).2 (by omega)]
    omega
  have hle : (timeDiff t.triggerTime c).2 ≠ .gt := by
    show timeCmp t.triggerTime c ≠ .gt
    rw [ne_eq, timeCmp_eq_gt]
    exact not_lt.2 hdue
  have hadvance : t.advance c = ({ t with
      triggerTime := timeAdd t.triggerTime (timeMult t.delay.toTime count) }, count.toInt) := by
    unfold Timer.advance
    rw [if_pos hrep, if_pos hle, ← hdef]
  rw [hadvance]
  refine ⟨hcount, rfl, ?_⟩
  rw [ns_timeAdd, ns_timeMult (hge.trans_eq hcount.symm), hcount, htrig]
  ring

/-! ## Runs of a realm -/

/-- What happens to a realm: the program uses a timer, or the clock is set and the timers are
checked. -/
inductive RealmInput where
  | op (op : TimerOp)
  | check (value : Time) (callbacks : Callbacks)

/-- One input, with the calls it makes. After a fault there is no realm. -/
def realmStep : Option Realm → RealmInput → Option Realm × List Call
  | none, _ => (none, [])
  | some r, .op op => (some (r.apply op), [])
  | some r, .check value callbacks =>
    match timeRealmUpdateAndCheck callbacks (r.sorted.length + 1) r value with
    | none => (none, [])
    | some d => (some d.toRealm, d.calls)

/-- The inputs that leave the timer `x` alone, with times that do not decrease, up to `2 ^ 33`
seconds. The callbacks leave the next timers alone, and less than `2 ^ 31` ticks are missed. -/
def OnTime (x : ℕ) (t₀ : Time) (delay : Delay) : Option Realm → RealmInput → Prop
  | none, _ => False
  | some _, .op op => op.timer ≠ x
  | some r, .check value callbacks =>
    r.time.ns ≤ value.ns ∧ value.ns ≤ maxNs ∧ (∀ calls, Spares x (callbacks calls)) ∧
      Dispatch.Orderly callbacks value r.sorted.length ⟨{ r with time := value }, []⟩ ∧
      ticks t₀ delay value - ticks t₀ delay r.time < 2 ^ 31

/-- The timer `x` repeats and triggers next at the first tick later than the time of the realm. -/
structure Ticking (x : ℕ) (t₀ : Time) (delay : Delay) (r : Realm) : Prop where
  wf : r.Wf
  parked : r.parked = []
  start : t₀.ns ≤ r.time.ns
  timer : ∃ t, r.timers x = some t ∧ t.armed = true ∧ t.repeats = true ∧ t.delay = delay ∧
    t.triggerTime.ns = t₀.ns + (ticks t₀ delay r.time + 1) * delay.toTime.ns

section Runs

variable {x : ℕ} {t₀ : Time} {delay : Delay} (hd : 0 < delay.toTime.ns) (h0 : 0 ≤ t₀.ns)

theorem countOf_append (x : ℕ) (calls calls' : List Call) :
    countOf x (calls ++ calls') = countOf x calls + countOf x calls' := by
  unfold countOf
  rw [filter_append, map_append, sum_append]

variable {r : Realm}

/-- What a check that returns leaves, whatever the callbacks do. -/
structure Dispatch.Sound (c : Time) (d : Dispatch) : Prop where
  wf : d.toRealm.Wf
  parked : d.parked = []
  order : d.calls.Pairwise fun k k' => k'.turn.triggerTime.ns ≤ k.turn.triggerTime.ns
  once : (d.calls.map Call.timer).Nodup
  turn : ∀ k ∈ d.calls, k.turn.armed = true ∧ k.turn.triggerTime.ns ≤ c.ns

theorem check_sound {value : Time} {callbacks : Callbacks} {d : Dispatch} (hr : r.Wf)
    (hp : r.parked = [])
    (h : timeRealmUpdateAndCheck callbacks (r.sorted.length + 1) r value = some d) :
    d.Sound value := by
  unfold timeRealmUpdateAndCheck at h
  split_ifs at h
  · cases h
    exact ⟨hr, hp, .nil, .nil, fun _ hk => absurd hk not_mem_nil⟩
  · obtain ⟨d, hd, rfl⟩ := Option.map_eq_some_iff.1 h
    have hlen := length_filter_le (Realm.isDue { r with time := value }) r.sorted
    have hout := Dispatch.checkLoop_outcome (P := fun _ => True) callbacks _ _
      (fun _ _ _ _ _ _ _ _ _ => trivial) (Dispatch.inv_begin (hr.setTime value) hp) trivial
      (Nat.lt_succ_of_le hlen) hlen
    have hinv := (hout.inv d hd).1
    exact ⟨Dispatch.wf_unpark hinv.wf, rfl, hinv.order, hinv.once, hinv.turn⟩

theorem realmStep_idle (s : Option Realm) (i : RealmInput)
    (hs : ∀ r ∈ s, r.Wf ∧ r.parked = []) : ∀ r ∈ (realmStep s i).1, r.Wf ∧ r.parked = [] := by
  intro r hr
  cases s with
  | none => cases hr
  | some s =>
    obtain ⟨hwf, hp⟩ := hs s rfl
    cases i with
    | op op =>
      cases hr
      obtain ⟨hwf', hcalm⟩ := Realm.apply_spec hwf op
      refine ⟨hwf', eq_nil_iff_forall_not_mem.2 fun y hy => ?_⟩
      simpa [hp] using hcalm.parked y hy
    | check value callbacks =>
      cases hd : timeRealmUpdateAndCheck callbacks (s.sorted.length + 1) s value with
      | none => simp [realmStep, hd] at hr
      | some d =>
        obtain rfl : d.toRealm = r := by simpa [realmStep, hd] using hr
        have hsound := check_sound hwf hp hd
        exact ⟨hsound.wf, hsound.parked⟩

/-- **Every check of every run** calls timers at most once, in order, and only those that are armed
and due, also if the callbacks disturb each other. -/
theorem checks_sound (is : List RealmInput) (value : Time) (callbacks : Callbacks) {d : Dispatch}
    (hr : (run realmStep (some createTimeRealmState) is).1 = some r)
    (h : timeRealmUpdateAndCheck callbacks (r.sorted.length + 1) r value = some d) :
    d.Sound value :=
  have hidle := run_invariant (fun s i hs _ => realmStep_idle s i hs)
    (fun _ h0 => Option.some.inj h0 ▸ ⟨wf_create, rfl⟩) (guarded_true _ is)
  check_sound (hidle r hr).1 (hidle r hr).2 h

theorem checks_sound_stopped : ∃ r d,
    (run realmStep (some createTimeRealmState) (threeTimers.map .op)).1 = some r ∧
    timeRealmUpdateAndCheck (fun _ => [.stop 2]) 4 r (seconds 3).toTime = some d ∧
    d.Sound (seconds 3).toTime :=
  ⟨_, _, rfl, rfl, checks_sound (threeTimers.map .op) _ (fun _ => [.stop 2]) rfl rfl⟩

theorem ticking_op {op : TimerOp} (h : Ticking x t₀ delay r) (hop : op.timer ≠ x) :
    Ticking x t₀ delay (r.apply op) ∧ (r.apply op).time = r.time := by
  obtain ⟨hwf, hcalm⟩ := Realm.apply_spec h.wf op
  refine ⟨⟨hwf, ?_, ?_, ?_⟩, hcalm.time⟩
  · refine eq_nil_iff_forall_not_mem.2 fun y hy => ?_
    have hy := hcalm.parked y hy
    rw [h.parked] at hy
    cases hy
  · rw [hcalm.time]
    exact h.start
  · rw [Realm.apply_timers hop, hcalm.time]
    exact h.timer

include hd h0

theorem ticking_check {value : Time} {callbacks : Callbacks} (h : Ticking x t₀ delay r)
    (hg : OnTime x t₀ delay (some r) (.check value callbacks)) :
    ∃ d, timeRealmUpdateAndCheck callbacks (r.sorted.length + 1) r value = some d ∧
      d.time = value ∧ Ticking x t₀ delay d.toRealm ∧
      countOf x d.calls = ticks t₀ delay value - ticks t₀ delay r.time := by
  obtain ⟨htime, hmax, hspare, horderly, hlt⟩ := hg
  obtain ⟨t, ht, harm, hrep, rfl, htrig⟩ := h.timer
  have hnn : 0 ≤ ticks t₀ t.delay r.time := Int.ediv_nonneg (by linarith [h.start]) hd.le
  unfold timeRealmUpdateAndCheck
  rw [if_neg (by rw [timeCmp_eq_lt]; exact not_lt.2 htime)]
  obtain ⟨d, hd', hdtime, hwf, hparked, heffect⟩ := check_follows (h.wf.setTime value) h.parked hspare
    ht harm (Nat.lt_succ_self r.sorted.length) horderly
  refine ⟨d, hd', hdtime, ?_⟩
  have hstart : t₀.ns ≤ d.time.ns := by
    rw [hdtime]
    exact h.start.trans htime
  by_cases hdue : t.triggerTime.ns ≤ value.ns
  · rw [if_pos hdue] at heffect
    obtain ⟨hcount, hkeep, htrig'⟩ := advance_ticks hrep hnn htrig hd h0 hdue hmax hlt
    refine ⟨⟨hwf, hparked, hstart, _, heffect.1, ?_, ?_, ?_, ?_⟩, heffect.2.trans hcount⟩
    · rw [hkeep]
      exact harm
    · rw [hkeep]
      exact hrep
    · rw [hkeep]
    · rw [hdtime]
      exact htrig'
  · rw [if_neg hdue] at heffect
    have hsame : ticks t₀ t.delay value = ticks t₀ t.delay r.time := by
      refine le_antisymm ?_ (Int.ediv_le_ediv hd (by linarith))
      rw [← Int.lt_add_one_iff, ← not_le, le_ticks_iff hd, ← htrig]
      exact hdue
    refine ⟨⟨hwf, hparked, hstart, t, heffect.1, harm, hrep, rfl, ?_⟩, ?_⟩
    · rw [hdtime, hsame]
      exact htrig
    · rw [heffect.2, hsame, sub_self]

theorem ticking_run {is : List RealmInput} (h : Ticking x t₀ delay r)
    (hg : Guarded realmStep (OnTime x t₀ delay) (some r) is) :
    ∃ r', (run realmStep (some r) is).1 = some r' ∧ Ticking x t₀ delay r' ∧
      countOf x (run realmStep (some r) is).2.flatten =
        ticks t₀ delay r'.time - ticks t₀ delay r.time := by
  induction is generalizing r with
  | nil => exact ⟨r, rfl, h, (sub_self _).symm⟩
  | cons i is ih =>
    obtain ⟨hi, his⟩ := hg
    rw [run_cons]
    cases i with
    | op op =>
      obtain ⟨h₁, htime⟩ := ticking_op h hi
      obtain ⟨r', hr', h', hcount⟩ := ih h₁ his
      exact ⟨r', hr', h', by rw [← htime]; exact hcount⟩
    | check value callbacks =>
      obtain ⟨d, hstep, hdtime, h₁, hcount₁⟩ := ticking_check hd h0 h hi
      have hrealm : realmStep (some r) (.check value callbacks) = (some d.toRealm, d.calls) := by
        unfold realmStep
        dsimp only
        rw [hstep]
      rw [hrealm] at his ⊢
      obtain ⟨r', hr', h', hcount⟩ := ih h₁ his
      refine ⟨r', hr', h', ?_⟩
      rw [flatten_cons, countOf_append, hcount₁, hcount, hdtime]
      ring

omit h0 in
theorem ticking_start {t : Timer} (hr : r.Wf) (hp : r.parked = [])
    (hx : r.timers x = some t) : Ticking x r.time delay (r.timerStart x delay true) ∧
      (r.timerStart x delay true).time = r.time := by
  obtain ⟨hwf, hcalm⟩ := Realm.apply_spec hr (.start x delay true)
  have hne : ¬(delay.secs = 0 ∧ delay.nsecs = 0) := fun ⟨hs, hn⟩ => by
    unfold Time.ns at hd
    rw [hs, hn] at hd
    exact absurd hd (by decide)
  have htimers : (r.timerStart x delay true).timers x =
      some ⟨true, true, timeAdd r.time delay.toTime, delay⟩ := by
    unfold Realm.timerStart
    rw [hx]
    rw [if_neg hne]
    exact Realm.timers_setTimer _
  have htime : (r.timerStart x delay true).time = r.time := hcalm.time
  refine ⟨⟨hwf, ?_, by rw [htime], _, htimers, rfl, rfl, rfl, ?_⟩, htime⟩
  · refine eq_nil_iff_forall_not_mem.2 fun y hy => ?_
    have hy := hcalm.parked y hy
    rw [hp] at hy
    cases hy
  · rw [htime, ns_timeAdd, ticks_self, zero_add, one_mul]

end Runs

/-- **No tick is lost or invented.** In every run in which less than `2 ^ 31` ticks are missed at a
check and the callbacks leave the next timers alone, after each check the counts a callback got add
up to the number of ticks, and it triggers next at the first later tick. -/
theorem no_tick_lost {r : Realm} (hr : r.Wf) (hp : r.parked = []) (h0 : 0 ≤ r.time.ns) {x : ℕ}
    {t : Timer} (hx : r.timers x = some t) {delay : Delay} (hd : 0 < delay.toTime.ns)
    (is : List RealmInput) (c : Time) (callbacks : Callbacks)
    (hg : Guarded realmStep (OnTime x r.time delay) (some (r.timerStart x delay true))
      (is ++ [.check c callbacks])) :
    countOf x (run realmStep (some (r.timerStart x delay true)) (is ++ [.check c callbacks])).2.flatten =
      {k : ℕ | 1 ≤ k ∧ r.time.ns + k * delay.toTime.ns ≤ c.ns}.ncard ∧
    ∃ r' t', (run realmStep (some (r.timerStart x delay true)) (is ++ [.check c callbacks])).1 = some r' ∧
      r'.timers x = some t' ∧ t'.armed = true ∧
      IsLeast {τ : ℤ | ∃ k : ℕ, 1 ≤ k ∧ τ = r.time.ns + k * delay.toTime.ns ∧ c.ns < τ}
        t'.triggerTime.ns := by
  obtain ⟨hstart, htime⟩ := ticking_start hd hr hp hx
  obtain ⟨his, hlast, -⟩ := (guarded_append _ _ _).1 hg
  obtain ⟨r₁, hr₁, h₁, hcount₁⟩ := ticking_run hd h0 hstart his
  rw [hr₁] at hlast
  obtain ⟨d, hstep, hdtime, h₂, hcount₂⟩ := ticking_check hd h0 h₁ hlast
  have hrealm : realmStep (some r₁) (.check c callbacks) = (some d.toRealm, d.calls) := by
    unfold realmStep
    dsimp only
    rw [hstep]
  have hle : r.time.ns ≤ c.ns := by
    rw [← hdtime]
    exact h₂.start
  rw [run_append, hr₁, run_cons, run_nil, hrealm]
  obtain ⟨t', ht', harm, -, -, htrig⟩ := h₂.timer
  rw [hdtime] at htrig
  refine ⟨?_, d.toRealm, t', rfl, ht', harm, ?_⟩
  · rw [ncard_ticks hd hle, flatten_append, countOf_append, hcount₁, flatten_cons,
      flatten_nil, append_nil, hcount₂, htime, ticks_self]
    ring
  · rw [htrig]
    exact isLeast_ticks hd hle

def oneTimer : Realm := createTimeRealmState.apply (.create 0)

theorem wf_oneTimer : oneTimer.Wf := (Realm.apply_spec wf_create _).1

def halfSecond : Delay := ⟨⟨0, 500000000, by decide⟩, (seconds 0).nonneg⟩

/-- A timer that repeats every half second is checked at second 1, and late, at second 10. -/
theorem no_tick_lost_late : countOf 0 (run realmStep (some (oneTimer.timerStart 0 halfSecond true))
      ([.check (seconds 1).toTime fun _ => []] ++ [.check (seconds 10).toTime fun _ => []])).2.flatten =
        {k : ℕ | 1 ≤ k ∧ oneTimer.time.ns + k * halfSecond.toTime.ns ≤ (seconds 10).toTime.ns}.ncard ∧
    ∃ r' t', (run realmStep (some (oneTimer.timerStart 0 halfSecond true))
      ([.check (seconds 1).toTime fun _ => []] ++ [.check (seconds 10).toTime fun _ => []])).1 =
        some r' ∧ r'.timers 0 = some t' ∧ t'.armed = true ∧
      IsLeast {τ : ℤ | ∃ k : ℕ, 1 ≤ k ∧ τ = oneTimer.time.ns + k * halfSecond.toTime.ns ∧
        (seconds 10).toTime.ns < τ} t'.triggerTime.ns :=
  no_tick_lost wf_oneTimer rfl (by decide) rfl (by decide) _ _ _
    ⟨⟨by decide, by decide +kernel, fun _ _ h => (by cases h), by decide +kernel, by decide +kernel⟩,
      ⟨by decide +kernel, by decide +kernel, fun _ _ h => (by cases h), by decide +kernel,
        by decide +kernel⟩, trivial⟩

/-- The first packet of a capture sets the clock of a new realm to second 1400000000. A timer of
half a second has missed 2800000000 ticks; its callback gets a negative count, and it triggers next
centuries later. -/
theorem ticks_truncated : ({k : ℕ | 1 ≤ k ∧ oneTimer.time.ns + k * halfSecond.toTime.ns ≤
      (seconds 1400000000).toTime.ns}.ncard : ℤ) = 2800000000 ∧
    countOf 0 (run realmStep (some (oneTimer.timerStart 0 halfSecond true))
      [.check (seconds 1400000000).toTime fun _ => []]).2.flatten = -1494967296 ∧
    ((run realmStep (some (oneTimer.timerStart 0 halfSecond true))
      [.check (seconds 1400000000).toTime fun _ => []]).1.bind fun r => (r.timers 0).map fun t =>
        t.triggerTime.secs) = some 17699260426 :=
  ⟨by rw [ncard_ticks (by decide) (by decide +kernel)]; decide +kernel, by decide +kernel,
    by decide +kernel⟩

end Haka
