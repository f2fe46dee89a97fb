import Haka.Lib.Machine

/-!
# The timers of a state machine instance

An instance keeps its timers in a vector. When it enters a state that has more timeouts than there
are timers, the vector grows and the missing timers are created; each of them registers the address
of its own element as the data for its callback. The vector is in one block of memory. When it grows
`realloc` may move it, and then the addresses that older timers have registered are not valid any
more: the timers run the right transitions exactly if the block never moves once it has elements.
-/

namespace Haka

open List Machine

/-! ## Vectors -/

/-- The address of an element: the block and the position in it. -/
structure Address where
  block : ℕ
  index : ℕ
  deriving DecidableEq

/-- `struct vector`. A new block has a number that no block had before. -/
structure Vect (α : Type*) where
  block : ℕ
  elems : List α
  allocated : ℕ

namespace Vect

variable {α : Type*}

/-- `vector_create`. -/
def create : Vect α := ⟨0, [], 0⟩

/-- `vector_reserve`, where `moves` says whether `realloc` moves the block. -/
def reserve (moves : Bool) (v : Vect α) (count : ℕ) : Vect α :=
  let count := if count < v.elems.length then v.elems.length else count
  if count ≠ v.allocated then
    { v with block := if moves then v.block + 1 else v.block, allocated := count }
  else v

/-- `vector_push`, with the element that is written to the address it returns. -/
def push (moves : Bool) (v : Vect α) (elem : Address → α) : Vect α :=
  let v := if v.elems.length = v.allocated then v.reserve moves (v.elems.length * 2 + 1) else v
  { v with elems := v.elems ++ [elem ⟨v.block, v.elems.length⟩] }

def read (v : Vect α) (a : Address) : Option α := if a.block = v.block then v.elems[a.index]? else none

end Vect

/-! ## Timers -/

/-- `struct timeout_data`, with what matters of its timer: whether it is armed and the data that was
registered for its callback. -/
structure TimeoutData where
  owner : ℕ
  timerIndex : ℕ
  armed : Bool
  data : Address

/-- The fields `timers` and `used_timer` of the instance `self`. -/
structure Timers where
  self : ℕ
  vector : Vect TimeoutData
  used : ℕ

namespace Timers

def create (self : ℕ) : Timers := ⟨self, .create, 0⟩

def setArmed (t : Timers) (n : ℕ) (armed : Bool) : Timers :=
  { t with vector := { t.vector with
      elems := t.vector.elems.mapIdx fun i e => if i < n then { e with armed := armed } else e } }

/-- The part of `state_machine_leave_state` that stops the timers. -/
def stop (t : Timers) : Timers := t.setArmed t.used false

/-- The `i`-th timer is created. -/
def createOne (moves : Bool) (t : Timers) (i : ℕ) : Timers :=
  { t with vector := t.vector.push moves fun a => ⟨t.self, i, false, a⟩ }

/-- The part of `state_machine_enter_state` that creates the missing timers. -/
def createMissing (moves : Bool) (t : Timers) (count : ℕ) : Timers :=
  let tcount := t.vector.elems.length
  let v := if count > tcount then t.vector.reserve moves count else t.vector
  (range' tcount (count - tcount)).foldl (createOne moves) { t with vector := v }

/-- The part of `state_machine_enter_state` for the timers of a state with `count` timeouts. -/
def start (moves : Bool) (t : Timers) (count : ℕ) : Timers :=
  { t.createMissing moves count with used := count }.setArmed count true

/-- The data of the `i`-th timer designates the `i`-th element, of this instance. -/
def Designates (t : Timers) (i : ℕ) : Prop :=
  ∃ e e', t.vector.elems[i]? = some e ∧ e.data.index = i ∧ t.vector.read e.data = some e' ∧
    e'.timerIndex = i ∧ e'.owner = t.self

/-! ## What entering a state does -/

/-- The elements that are created, in the block `block`. -/
def created (self block tcount n : ℕ) : List TimeoutData :=
  (range' tcount n).map fun i => ⟨self, i, false, ⟨block, i⟩⟩

variable {t : Timers} {i : ℕ} {e : TimeoutData}

theorem foldl_createOne (moves : Bool) (n : ℕ)
    (h : t.vector.elems.length + n ≤ t.vector.allocated) :
    (range' t.vector.elems.length n).foldl (createOne moves) t = { t with vector := { t.vector with
        elems := t.vector.elems ++ created t.self t.vector.block t.vector.elems.length n } } := by
  induction n generalizing t with
  | zero => simp [created]
  | succ n ih =>
    have hpush : createOne moves t t.vector.elems.length = { t with vector := { t.vector with
        elems := t.vector.elems ++
          [⟨t.self, t.vector.elems.length, false, ⟨t.vector.block, t.vector.elems.length⟩⟩] } } := by
      unfold createOne Vect.push
      rw [if_neg (by omega)]
    rw [range'_succ, foldl_cons, hpush]
    have hnext := @ih { t with vector := { t.vector with elems := t.vector.elems ++
      [⟨t.self, t.vector.elems.length, false, ⟨t.vector.block, t.vector.elems.length⟩⟩] } } (by
        simp only [length_append, length_singleton]
        omega)
    simp only [length_append, length_singleton] at hnext
    rw [hnext]
    simp [created, range'_succ]

/-- Every element is of this instance and of its own position, and was registered in a block that is
not newer than the one of the vector, which is full. -/
structure Laid (t : Timers) : Prop where
  full : t.vector.allocated = t.vector.elems.length
  used : t.used ≤ t.vector.elems.length
  elems : ∀ (i : ℕ) (e : TimeoutData), t.vector.elems[i]? = some e → e.owner = t.self ∧ e.timerIndex = i ∧
    e.data.index = i ∧ e.data.block ≤ t.vector.block
  armed : ∀ (i : ℕ) (e : TimeoutData), t.vector.elems[i]? = some e → e.armed = true → i < t.used

/-- The block after the timers of a state with `count` timeouts were created. -/
def blockAfter (moves : Bool) (t : Timers) (count : ℕ) : ℕ :=
  if t.vector.elems.length < count ∧ moves = true then t.vector.block + 1 else t.vector.block

theorem createMissing_eq (moves : Bool) (h : t.Laid) (count : ℕ) :
    t.createMissing moves count = { t with vector :=
      ⟨t.blockAfter moves count, t.vector.elems ++ created t.self (t.blockAfter moves count)
        t.vector.elems.length (count - t.vector.elems.length),
        max count t.vector.elems.length⟩ } := by
  unfold createMissing
  have hfull := h.full
  by_cases hc : t.vector.elems.length < count
  · have hreserve : t.vector.reserve moves count =
        ⟨t.blockAfter moves count, t.vector.elems, count⟩ := by
      unfold Vect.reserve blockAfter
      rw [if_neg (by omega : ¬count < t.vector.elems.length), if_pos (by omega)]
      cases moves <;> simp [hc]
    dsimp only
    rw [if_pos hc, hreserve]
    have hfold := foldl_createOne moves (count - t.vector.elems.length)
      (t := { t with vector := ⟨t.blockAfter moves count, t.vector.elems, count⟩ }) (by
        dsimp only
        omega)
    rw [hfold, max_eq_left hc.le]
  · have hblock : t.blockAfter moves count = t.vector.block := if_neg fun h0 => hc h0.1
    dsimp only
    rw [if_neg hc, show count - t.vector.elems.length = 0 by omega, hblock,
      max_eq_right (not_lt.1 hc), ← hfull]
    simp [created]

theorem getElem?_setArmed (t : Timers) (n i : ℕ) (armed : Bool) :
    (t.setArmed n armed).vector.elems[i]? =
      t.vector.elems[i]?.map fun e => if i < n then { e with armed := armed } else e :=
  getElem?_mapIdx

theorem laid_stop (h : t.Laid) : t.stop.Laid := by
  refine ⟨?_, ?_, fun i e he => ?_, fun i e he ha => ?_⟩
  · exact h.full.trans (length_mapIdx ..).symm
  · exact h.used.trans (length_mapIdx ..).symm.le
  · obtain ⟨e0, he0, rfl⟩ := Option.map_eq_some_iff.1 ((getElem?_setArmed ..).symm.trans he)
    have helem := h.elems i e0 he0
    split_ifs <;> exact helem
  · obtain ⟨e0, he0, rfl⟩ := Option.map_eq_some_iff.1 ((getElem?_setArmed ..).symm.trans he)
    split_ifs at ha with hi
    exact h.armed i e0 he0 ha

theorem unarmed_stop (h : t.Laid) (he : t.stop.vector.elems[i]? = some e) : e.armed = false := by
  obtain ⟨e0, he0, rfl⟩ := Option.map_eq_some_iff.1 ((getElem?_setArmed ..).symm.trans he)
  split_ifs with hi
  · rfl
  · by_contra h0
    exact hi (h.armed i e0 he0 (by simpa using h0))

theorem getElem?_created {self block tcount n : ℕ}
    (h : (created self block tcount n)[i]? = some e) :
    i < n ∧ e = ⟨self, tcount + i, false, ⟨block, tcount + i⟩⟩ := by
  unfold created at h
  rw [getElem?_map, Option.map_eq_some_iff] at h
  obtain ⟨j, hj, rfl⟩ := h
  obtain ⟨hi, rfl⟩ := List.getElem?_eq_some_iff.1 hj
  rw [length_range'] at hi
  exact ⟨hi, by simp⟩

theorem length_created (self block tcount n : ℕ) : (created self block tcount n).length = n := by
  unfold created
  rw [length_map, length_range']

/-- The elements when a state with `count` timeouts is entered: those there were and those that are
created in the block of the vector. -/
theorem getElem?_start {moves : Bool} (h : t.Laid) {count : ℕ}
    (he : (t.start moves count).vector.elems[i]? = some e) :
    ∃ e0 : TimeoutData, e = (if i < count then { e0 with armed := true } else e0) ∧
      (t.vector.elems[i]? = some e0 ∨ t.vector.elems.length ≤ i ∧ i < count ∧
        e0 = ⟨t.self, i, false, ⟨t.blockAfter moves count, i⟩⟩) := by
  obtain ⟨e0, he0, rfl⟩ := Option.map_eq_some_iff.1 ((getElem?_setArmed ..).symm.trans he)
  refine ⟨e0, rfl, ?_⟩
  rw [createMissing_eq moves h] at he0
  rcases lt_or_ge i t.vector.elems.length with hi | hi
  · rw [getElem?_append_left hi] at he0
    exact .inl he0
  · rw [getElem?_append_right hi] at he0
    obtain ⟨hlt, rfl⟩ := getElem?_created he0
    refine .inr ⟨hi, by omega, ?_⟩
    rw [show t.vector.elems.length + (i - t.vector.elems.length) = i by omega]

theorem start_block (moves : Bool) (h : t.Laid) (count : ℕ) :
    (t.start moves count).vector.block = t.blockAfter moves count := by
  unfold start setArmed
  rw [createMissing_eq moves h]

theorem start_length (moves : Bool) (h : t.Laid) (count : ℕ) :
    (t.start moves count).vector.elems.length = max count t.vector.elems.length := by
  unfold start setArmed
  rw [length_mapIdx, createMissing_eq moves h, length_append, length_created]
  omega

theorem le_blockAfter (moves : Bool) (t : Timers) (count : ℕ) :
    t.vector.block ≤ t.blockAfter moves count := by
  unfold blockAfter
  split_ifs <;> omega

def Unarmed (t : Timers) : Prop :=
  ∀ (i : ℕ) (e : TimeoutData), t.vector.elems[i]? = some e → e.armed = false

theorem laid_start {moves : Bool} (h : t.Laid) (hu : t.Unarmed) (count : ℕ) :
    (t.start moves count).Laid := by
  have hlen := start_length moves h count
  have hself : (t.start moves count).self = t.self := by
    unfold start setArmed
    rw [createMissing_eq moves h]
  refine ⟨?_, ?_, fun i e he => ?_, fun i e he ha => ?_⟩
  · rw [hlen]
    unfold start setArmed
    rw [createMissing_eq moves h]
  · rw [hlen]
    exact le_max_left ..
  · obtain ⟨e0, rfl, hor⟩ := getElem?_start h he
    have helem : e0.owner = t.self ∧ e0.timerIndex = i ∧ e0.data.index = i ∧
        e0.data.block ≤ t.blockAfter moves count := by
      rcases hor with h0 | ⟨-, -, rfl⟩
      · obtain ⟨h1, h2, h3, h4⟩ := h.elems i e0 h0
        exact ⟨h1, h2, h3, h4.trans (le_blockAfter ..)⟩
      · exact ⟨rfl, rfl, rfl, le_refl _⟩
    rw [hself, start_block moves h]
    split_ifs <;> exact helem
  · show i < count
    obtain ⟨e0, rfl, hor⟩ := getElem?_start h he
    rcases hor with h0 | ⟨-, hi, -⟩
    · by_contra hi
      rw [if_neg hi, hu i e0 h0] at ha
      cases ha
    · exact hi

/-! ## Sequences of states -/

/-- A state with `count` timeouts is entered, after the timers of the last one were stopped. -/
def enterStep (t : Timers) (e : ℕ × Bool) : Timers × Unit := (t.stop.start e.2 e.1, ())

def Stays (t : Timers) (e : ℕ × Bool) : Prop :=
  ¬(0 < t.vector.elems.length ∧ t.vector.elems.length < e.1 ∧ e.2 = true)

instance decidableStays (t : Timers) (e : ℕ × Bool) : Decidable (t.Stays e) :=
  inferInstanceAs (Decidable (¬_))

/-- Every timer was registered in the block of the vector. -/
structure Live (t : Timers) : Prop extends Laid t where
  block : ∀ (i : ℕ) (e : TimeoutData), t.vector.elems[i]? = some e → e.data.block = t.vector.block

theorem Live.designates (h : t.Live) (hi : i < t.vector.elems.length) : t.Designates i := by
  have he := getElem?_eq_getElem hi
  obtain ⟨howner, hindex, hdata, -⟩ := h.elems i _ he
  refine ⟨_, _, he, hdata, ?_, hindex, howner⟩
  unfold Vect.read
  rw [if_pos (h.block i _ he), hdata]
  exact he

theorem laid_step (h : t.Laid) (e : ℕ × Bool) : (t.enterStep e).1.Laid :=
  laid_start (laid_stop h) (fun _ _ => unarmed_stop h) e.1

theorem live_stop (h : t.Live) : t.stop.Live := by
  refine ⟨laid_stop h.toLaid, fun i e he => ?_⟩
  obtain ⟨e0, he0, rfl⟩ := Option.map_eq_some_iff.1 ((getElem?_setArmed ..).symm.trans he)
  have hblock := h.block i e0 he0
  split_ifs <;> exact hblock

/-- **One state.** The timers stay registered in the block of the vector if it does not move. -/
theorem live_step (h : t.Live) (e : ℕ × Bool) (hs : t.Stays e) : (t.enterStep e).1.Live := by
  have hstop := live_stop h
  have hlen : t.stop.vector.elems.length = t.vector.elems.length := length_mapIdx ..
  refine ⟨laid_step h.toLaid e, fun i x hx => ?_⟩
  obtain ⟨x0, rfl, hor⟩ := getElem?_start hstop.toLaid hx
  have hblock : x0.data.block = t.stop.blockAfter e.2 e.1 := by
    rcases hor with h₀ | ⟨-, -, rfl⟩
    · have hi := (List.getElem?_eq_some_iff.1 h₀).1
      have hsame : t.stop.blockAfter e.2 e.1 = t.stop.vector.block :=
        if_neg fun h0 => hs ⟨by omega, by omega, h0.2⟩
      rw [hsame]
      exact hstop.block i x0 h₀
    · rfl
  show _ = (t.stop.start e.2 e.1).vector.block
  rw [start_block e.2 hstop.toLaid]
  split_ifs <;> exact hblock

theorem stale_step (h : t.Laid) (e : ℕ × Bool) (hs : ¬t.Stays e) :
    (t.enterStep e).1.used = e.1 ∧ 0 < e.1 ∧ ¬(t.enterStep e).1.Designates 0 := by
  obtain ⟨hpos, hlt, hmoves⟩ := not_not.1 hs
  have hstop := laid_stop h
  have hlen : t.stop.vector.elems.length = t.vector.elems.length := length_mapIdx ..
  refine ⟨rfl, by omega, ?_⟩
  rintro ⟨x, x', hx, -, hread, -⟩
  obtain ⟨x0, rfl, hor⟩ := getElem?_start hstop hx
  rcases hor with h0 | ⟨hle, -, -⟩
  · have hold : x0.data.block ≤ t.vector.block := (hstop.elems 0 x0 h0).2.2.2
    have hnew : (t.enterStep e).1.vector.block = t.vector.block + 1 := by
      show (t.stop.start e.2 e.1).vector.block = _
      rw [start_block e.2 hstop]
      exact if_pos ⟨by omega, hmoves⟩
    unfold Vect.read at hread
    rw [hnew, if_neg] at hread
    · cases hread
    · have hne : x0.data.block ≠ t.vector.block + 1 := by omega
      split_ifs <;> exact hne
  · omega

end Timers

theorem live_run_iff {t : Timers} (h : t.Live) (es : List (ℕ × Bool)) :
    (∀ pre, pre <+: es → ∀ i < (run Timers.enterStep t pre).1.used,
      (run Timers.enterStep t pre).1.Designates i) ↔ Guarded Timers.enterStep Timers.Stays t es := by
  induction es generalizing t with
  | nil =>
    refine ⟨fun _ => trivial, fun _ pre hpre i hi => ?_⟩
    rw [prefix_nil.1 hpre] at hi ⊢
    exact h.designates (hi.trans_le h.used)
  | cons e es ih =>
    constructor
    · intro hall
      have hs : t.Stays e := by
        by_contra hs
        obtain ⟨hused, hpos, hstale⟩ := Timers.stale_step h.toLaid e hs
        exact hstale (hall [e] (prefix_append [e] es) 0 (by rw [run_cons, run_nil, hused]; exact hpos))
      refine ⟨hs, (ih (Timers.live_step h e hs)).1 fun pre hpre i hi => ?_⟩
      exact hall (e :: pre) (cons_prefix_cons.2 ⟨rfl, hpre⟩) i hi
    · rintro ⟨hs, hes⟩ pre hpre i hi
      cases pre with
      | nil => exact h.designates (hi.trans_le h.used)
      | cons e' pre =>
        obtain ⟨rfl, htail⟩ := cons_prefix_cons.1 hpre
        exact (ih (Timers.live_step h e' hs)).2 hes pre htail i hi

theorem Timers.live_create (self : ℕ) : (Timers.create self).Live :=
  ⟨⟨rfl, le_refl _, fun _ _ h => (by cases h), fun _ _ h => (by cases h)⟩, fun _ _ h => (by cases h)⟩

/-- **Timeouts run the right transition.** For every sequence of states and any behaviour of
`realloc`, the data of every timer in use designates its own element exactly if `realloc` never
moves a vector with timers when a state with more timeouts is entered. -/
theorem timeouts_designate_iff (self : ℕ) (es : List (ℕ × Bool)) :
    (∀ pre, pre <+: es → ∀ i < (run Timers.enterStep (.create self) pre).1.used,
      (run Timers.enterStep (.create self) pre).1.Designates i) ↔
    Guarded Timers.enterStep Timers.Stays (.create self) es :=
  live_run_iff (Timers.live_create self) es

/-- A state with one timeout, then one with two, and `realloc` moves the vector: the first timer has
an address in the old block. -/
theorem timeouts_dangle : 0 < (run Timers.enterStep (.create 0) [(1, true), (2, true)]).1.used ∧
    ¬(run Timers.enterStep (.create 0) [(1, true), (2, true)]).1.Designates 0 := by
  refine ⟨by decide, ?_⟩
  rintro ⟨e, e', he, -, hread, -⟩
  have hfirst : (run Timers.enterStep (.create 0) [(1, true), (2, true)]).1.vector.elems[0]? =
      some ⟨0, 0, true, ⟨1, 0⟩⟩ := rfl
  obtain rfl := Option.some.inj (hfirst.symm.trans he)
  cases hread

end Haka
