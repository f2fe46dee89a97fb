import Haka.Timer.Time

/-!
# Time realms

The timers of a time realm whose clock is set by hand, as the static realm of the packets. The list
`sorted_timer` holds the timers that run, the next to trigger first. A check takes the timers that
are due from the list, one after the other, and calls their callbacks, which may start, stop and
destroy timers. A repeating timer is parked in a second list until all callbacks were called.

A timer is given by its number. The links of a timer are those of the list it is in, and NULL when it
is in none; to unlink it then is a fault, as is to read a timer that was destroyed. What a realtime
clock needs besides, to set the alarm for the first timer, is left out.
-/

namespace Haka

/-- A delay is a time that is not negative. -/
structure Delay extends Time where
  nonneg : 0 ≤ secs
  deriving DecidableEq

/-- `struct timer`. -/
structure Timer where
  armed : Bool
  repeats : Bool
  triggerTime : Time
  delay : Delay
  deriving DecidableEq

/-- `struct time_realm_state`, with the timers that are allocated and with `repeat_list`, which is
empty outside of a check. -/
structure Realm where
  time : Time
  sorted : List ℕ
  parked : List ℕ
  timers : ℕ → Option Timer

/-- What a program or a callback does with timers. It has no pointer to a timer that was destroyed. -/
inductive TimerOp where
  | create (timer : ℕ)
  | start (timer : ℕ) (delay : Delay) (repeats : Bool)
  | stop (timer : ℕ)
  | destroy (timer : ℕ)

def TimerOp.timer : TimerOp → ℕ
  | create x | start x _ _ | stop x | destroy x => x

/-- A call of the callback of a timer: the timer when its turn came and the count. -/
structure Call where
  timer : ℕ
  turn : Timer
  count : ℤ

abbrev Callbacks := List Call → List TimerOp

/-! ## Starting and stopping -/

namespace Realm

def trigger (r : Realm) (x : ℕ) : Time := ((r.timers x).map Timer.triggerTime).getD invalidTime

/-- The timer `x` is set to `t`. -/
def setTimer (r : Realm) (x : ℕ) (t : Option Timer) : Realm :=
  { r with timers := Function.update r.timers x t }

def timeRealmTimer (r : Realm) (x : ℕ) : Realm :=
  match r.timers x with
  | none => r.setTimer x (some ⟨false, false, invalidTime, ⟨invalidTime, le_refl _⟩⟩)
  | some _ => r

/-- `time_realm_insert_timer`: before the first timer that triggers later. -/
def timeRealmInsertTimer (r : Realm) (x : ℕ) : Realm :=
  { r with
    sorted := r.sorted.orderedInsert (fun a b => timeCmp (r.trigger a) (r.trigger b) = .lt) x }

def timerStop (r : Realm) (x : ℕ) : Realm :=
  match r.timers x with
  | none => r
  | some t =>
    if !t.armed then r
    else
      { r.setTimer x (some { t with armed := false }) with
        sorted := r.sorted.erase x, parked := r.parked.erase x }

def timerDestroy (r : Realm) (x : ℕ) : Realm := (r.timerStop x).setTimer x none

/-- `timer_start`, which refuses an empty delay. -/
def timerStart (r : Realm) (x : ℕ) (delay : Delay) (repeats : Bool) : Realm :=
  match r.timers x with
  | none => r
  | some _ =>
    if delay.secs = 0 ∧ delay.nsecs = 0 then r
    else
      ((r.timerStop x).setTimer x
        (some ⟨true, repeats, timeAdd r.time delay.toTime, delay⟩)).timeRealmInsertTimer x

def apply (r : Realm) : TimerOp → Realm
  | .create x => r.timeRealmTimer x
  | .start x delay repeats => r.timerStart x delay repeats
  | .stop x => r.timerStop x
  | .destroy x => r.timerDestroy x

end Realm

/-! ## Checks -/

/-- The next trigger time of a repeating timer that is due and the number of times it has triggered;
another timer is not armed any more. -/
def Timer.advance (t : Timer) (current : Time) : Timer × ℤ :=
  if t.repeats then
    if (timeDiff t.triggerTime current).2 ≠ .gt then
      let count := Int32.ofNat (timeDivide (timeDiff t.triggerTime current).1 t.delay.toTime + 1)
      ({ t with triggerTime := timeAdd t.triggerTime (timeMult t.delay.toTime count) }, count.toInt)
    else ({ t with triggerTime := timeAdd current t.delay.toTime }, 1)
  else ({ t with armed := false }, 1)

/-- A check: the realm and the calls so far, the last one first. -/
structure Dispatch extends Realm where
  calls : List Call

/-- The timer after `x` in a list. -/
def listNext (l : List ℕ) (x : ℕ) : Option ℕ := (l.dropWhile (· ≠ x)).tail.head?

namespace Dispatch

variable (callbacks : Callbacks) (current : Time)

/-- The timer `x` is unlinked, parked if it repeats, and its callback is called. -/
def fire (d : Dispatch) (x : ℕ) (t : Timer) : Dispatch :=
  let calls := ⟨x, t, (t.advance current).2⟩ :: d.calls
  let r := { d.toRealm.setTimer x (some (t.advance current).1) with
    sorted := d.sorted.erase x, parked := if t.repeats then d.parked ++ [x] else d.parked }
  ⟨(callbacks calls).foldl Realm.apply r, calls⟩

/-- The loop of `_time_realm_check`, from the timer `iter` on. Every turn but the last removes a
timer from the list. -/
def checkLoop : ℕ → Dispatch → Option ℕ → Option Dispatch
  | _, d, none => some d
  | 0, _, some _ => none
  | n + 1, d, some x =>
    match d.timers x with
    | none => none
    | some t =>
      if timeCmp t.triggerTime current ≠ .gt then
        if x ∈ d.sorted then checkLoop n (d.fire callbacks current x t) (listNext d.sorted x) else none
      else some d

def unpark (d : Dispatch) : Dispatch :=
  { d with toRealm := { d.parked.foldl Realm.timeRealmInsertTimer d.toRealm with parked := [] } }

end Dispatch

/-- `_time_realm_check`, with fuel for the loop; none is a fault. -/
def _timeRealmCheck (callbacks : Callbacks) (fuel : ℕ) (r : Realm) : Option Dispatch :=
  (Dispatch.checkLoop callbacks r.time fuel ⟨r, []⟩ r.sorted.head?).map Dispatch.unpark

/-- `time_realm_update_and_check`. A time before that of the realm is ignored. -/
def timeRealmUpdateAndCheck (callbacks : Callbacks) (fuel : ℕ) (r : Realm) (value : Time) :
    Option Dispatch :=
  if timeCmp value r.time = .lt then some ⟨r, []⟩
  else _timeRealmCheck callbacks fuel { r with time := value }

def createTimeRealmState : Realm := ⟨invalidTime, [], [], fun _ => none⟩

end Haka
