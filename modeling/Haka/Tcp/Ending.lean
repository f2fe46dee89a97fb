import Haka.Tcp.States

/-!
# The end of a connection

The event `end_connection` is triggered by the enter actions of the states `reset` and `timed_wait`
and by the finish action of every other state. A connection that waits in `timed_wait` and gets a
RST triggers it again. A connection that is closed because an error was raised does not trigger it;
a packet that is not expected raises one.
-/

namespace Haka

open Program Machine TcpConnection

/-! ## The event `end_connection` -/

/-- Between the inputs the event has come once when the state machine has finished and in the states
that trigger it, and not yet in the others. It has come to a closed connection. -/
structure OneEnd (c : TcpConnection) : Prop where
  inFailure : c.inFailure = false
  ended : c.finished = true ∧ c.current = none ∧ ended c.log = 1 ∨
    c.finished = false ∧ ∃ s, c.current = some s ∧ ended c.log = if s.signals then 1 else 0
  closed : c.hasState = false → Haka.ended c.log = 1

variable {c c' : TcpConnection} {s : TcpState}

theorem OneEnd.sameState (h : OneEnd c) (hs : SameState c c') : OneEnd c' := by
  refine ⟨hs.inFailure.trans h.inFailure, ?_, ?_⟩
  · rw [hs.finished, hs.current, hs.ended]
    exact h.ended
  · rw [hs.hasState, hs.ended]
    exact h.closed

theorem OneEnd.finishes (h : OneEnd c) (hs : c.current = some s) (hf : Finishes s c c') : OneEnd c' := by
  have hone : Haka.ended c'.log = 1 := by
    rcases h.ended with ⟨-, h0, -⟩ | ⟨-, s', hs', hend⟩
    · rw [hs] at h0
      cases h0
    · obtain rfl : s = s' := Option.some.inj (hs.symm.trans hs')
      rw [hf.ended, hend]
      cases s.signals <;> rfl
  exact ⟨hf.inFailure.trans h.inFailure, .inl ⟨hf.finished, hf.current, hone⟩, fun _ => hone⟩

theorem OneEnd.enters {s' : TcpState} (h : OneEnd c) (hs : c.current = some s)
    (hsig : s.signals = false) (he : Enters s' c c') : OneEnd c' := by
  have hzero : Haka.ended c.log = 0 := by
    rcases h.ended with ⟨-, h0, -⟩ | ⟨-, s1, hs1, hend⟩
    · rw [hs] at h0
      cases h0
    · obtain rfl : s = s1 := Option.some.inj (hs.symm.trans hs1)
      rw [hend, hsig]
      rfl
  rcases he.state with ⟨hf, hc, -, -, hst, hend⟩ | ⟨hf, hc, hend⟩
  · rw [hzero, Nat.zero_add] at hend
    refine ⟨he.inFailure, .inr ⟨hf, s', hc, hend⟩, fun h0 => ?_⟩
    exact absurd (hzero.symm.trans (h.closed (hst.symm.trans h0))) (by decide)
  · rw [hzero] at hend
    exact ⟨he.inFailure, .inl ⟨hf, hc, hend⟩, fun _ => hend⟩

theorem findAction_signals {e : TcpEvent} {f : TcpFlags} {a : Action}
    (ha : findAction s e f = some a) (hs : s.signals = true) (he : e ≠ .reset) (s' : TcpState) :
    a.jump ≠ some (.state s') := by
  have hm := List.mem_of_find?_eq_some ha
  have hp := List.find?_some ha
  cases s with
  | reset | timedWait =>
    simp only [stateActions, anyActions, List.mem_append, List.mem_cons, List.not_mem_nil,
      or_false, false_or] at hm
    aesop
  | _ => cases hs

section Ends

variable {react : ConnM Unit} (hr : Within Steady react) {c : TcpConnection} {pkt : Tcp}

include hr

theorem oneEnd_update (h : OneEnd c) (jump : Jump)
    (hj : ∀ s', jump = .state s' → resetsOf c.script = 0 ∧ ∀ s, c.current = some s → s.signals = false) :
    OneEnd (exec (instanceUpdate react jump) c).2 ∧
    resetsOf (exec (instanceUpdate react jump) c).2.script ≤ resetsOf c.script := by
  unfold instanceUpdate
  rw [exec_get_bind]
  rcases h.ended with ⟨hf, -, -⟩ | ⟨hf, s, hs, -⟩
  · rw [if_pos hf]
    exact ⟨h, le_refl _⟩
  rw [if_neg (by simp [hf])]
  cases jump with
  | fail =>
    obtain ⟨_, hc'⟩ := (instanceFail_finishes hr hf hs h.inFailure).state
    exact ⟨h.finishes hs hc', hc'.resets⟩
  | finish =>
    obtain ⟨_, hc'⟩ := (instanceFinish_finishes hr hf hs).state
    exact ⟨h.finishes hs hc', hc'.resets⟩
  | state s' =>
    obtain ⟨hd, hsig⟩ := hj s' rfl
    obtain ⟨_, hc'⟩ := (enterState_enters hr s' hf h.inFailure hd).state
    exact ⟨h.enters hs (hsig s hs) hc', hc'.resets⟩

theorem oneEnd_trigger (h : OneEnd c) (hd : resetsOf c.script = 0) (event : TcpEvent)
    (he : event = .reset → ∀ s, c.current = some s → s.signals = false) :
    OneEnd (exec (trigger react event pkt) c).2 := by
  unfold trigger
  rw [exec_get_bind]
  cases hs : c.current with
  | none => exact h
  | some s =>
    dsimp only
    cases ha : findAction s event pkt.flags with
    | none => exact h
    | some a =>
      have hex := execute_within steady_of_same hr pkt a.execute c (.inl hd)
      rw [exec_bind]
      generalize exec (execute react pkt a.execute) c = r at hex ⊢
      obtain ⟨_ | _, c1⟩ := r
      · exact h.sameState hex.toSameState
      have h1 : OneEnd c1 := h.sameState hex.toSameState
      cases hj : a.jump with
      | none => exact h1
      | some jump =>
        refine (oneEnd_update hr h1 jump fun s' hs' =>
          ⟨Nat.le_zero.1 (hex.resets.trans hd.le), fun s1 hs1 => ?_⟩).1
        obtain rfl : s = s1 := Option.some.inj (hs.symm.trans (hex.current.symm.trans hs1))
        by_contra hsig
        have hreset : event ≠ .reset := fun h0 => hsig (he h0 s hs)
        exact findAction_signals ha (by simpa using hsig) hreset s' (by rw [hj, hs'])

theorem oneEnd_updatePacket (h : OneEnd c) (hd : resetsOf c.script = 0) (d : Direction)
    (hrst : pkt.flags.rst = true → ∀ s, c.current = some s → s.signals = false) :
    OneEnd (exec (update react d pkt) c).2 := by
  unfold update
  rw [exec_get_bind]
  by_cases hstate : (!c.hasState || c.current.isNone) = true
  · rw [if_pos hstate]
    exact h
  rw [if_neg hstate]
  by_cases hr' : pkt.flags.rst = true
  · rw [if_pos hr']
    have hsame := sendpkt_within steady_of_same hr pkt d c (.inl hd)
    rw [exec_bind]
    generalize exec (_sendpkt react pkt d) c = r at hsame ⊢
    obtain ⟨_ | _, c1⟩ := r
    · exact h.sameState hsame.toSameState
    · refine oneEnd_trigger hr (h.sameState hsame.toSameState)
        (Nat.le_zero.1 (hsame.resets.trans hd.le)) .reset fun _ s hs => ?_
      exact hrst hr' s (hsame.current.symm.trans hs)
  · rw [if_neg hr']
    split_ifs
    · exact oneEnd_trigger hr h hd .input (fun h0 => by cases h0)
    · exact oneEnd_trigger hr h hd .output (fun h0 => by cases h0)

end Ends

/-! ## One reset -/

/-- The script resets the connection at most once, and only if the event has not come yet. -/
structure Ready (c : TcpConnection) : Prop where
  oneEnd : OneEnd c
  once : resetsOf c.script ≤ 1
  fresh : resetsOf c.script = 1 → ∀ s, c.current = some s → s.signals = false

def ResetsOnce (c c' : TcpConnection) : Prop :=
  Ready c → Ready c' ∧ resetsOf c'.script ≤ resetsOf c.script ∧
    (resetsOf c'.script = 0 ∨ c'.current = c.current)

instance : Std.Refl ResetsOnce := ⟨fun _ h => ⟨h, le_refl _, .inr rfl⟩⟩

instance : IsTrans TcpConnection ResetsOnce where
  trans c₁ c₂ c₃ h h' h₁ := by
    obtain ⟨h₂, hle, hor⟩ := h h₁
    obtain ⟨h₃, hle', hor'⟩ := h' h₂
    refine ⟨h₃, hle'.trans hle, ?_⟩
    rcases hor with h0 | h0
    · exact .inl (Nat.le_zero.1 (hle'.trans h0.le))
    · exact hor'.imp_right fun h1 => h1.trans h0

theorem Same.resetsOnce (hs : Same c c') : ResetsOnce c c' := by
  intro h
  refine ⟨⟨h.oneEnd.sameState hs.toSameState, hs.resets.trans h.once, fun h1 s hs' => ?_⟩,
    hs.resets, .inr hs.current⟩
  have hle := hs.resets
  have honce := h.once
  exact h.fresh (by omega) s (hs.current.symm.trans hs')

theorem drop_oneEnd {react : ConnM Unit} (hr : Within Steady react) (h : OneEnd c)
    (hd : resetsOf c.script = 0) (hs : ∀ s, c.current = some s → s.signals = false) :
    OneEnd (exec (drop react) c).2 ∧
    resetsOf (exec (drop react) c).2.script = 0 := by
  unfold drop
  rw [exec_get_bind]
  split_ifs
  · exact ⟨h, hd⟩
  · have hupdate := oneEnd_update hr h (.state .reset) fun _ _ => ⟨hd, hs⟩
    exact ⟨hupdate.1, Nat.le_zero.1 (hupdate.2.trans hd.le)⟩

theorem resetsOnce_reactions (n : ℕ) : Within ResetsOnce (reactions n) := by
  induction n with
  | zero => exact within_pure ()
  | succ n ih =>
    refine within_get fun c => ?_
    split
    next => exact refl_of ResetsOnce c
    next script hs => exact (same_script (by rw [hs]; exact resetsOf_cons_le _ _)).resetsOnce
    next r script _ hs =>
      rw [exec_modify_bind]
      have hpop : Same c { c with script := script } :=
        same_script (by rw [hs]; exact resetsOf_cons_le _ _)
      have hstep : ResetsOnce c
          (exec (perform (reactions n) r) { c with script := script }).2 := by
        by_cases hres : r.resets = true
        · intro h
          have hcount : resetsOf c.script = resetsOf script + 1 := by
            rw [hs]
            exact List.countP_cons_of_pos hres
          have honce := h.once
          have hzero : resetsOf script = 0 := by omega
          have hfresh := h.fresh (by omega)
          have hdone : ∀ c', OneEnd c' ∧ resetsOf c'.script = 0 → Ready c' ∧
              resetsOf c'.script ≤ resetsOf c.script ∧
              (resetsOf c'.script = 0 ∨ c'.current = c.current) := fun c' h' =>
            ⟨⟨h'.1, by omega, fun h1 => by omega⟩, by omega, .inl h'.2⟩
          -- no reset is left, so the rules that see the resets sent are steady
          have hsame : ∀ c', Steady { c with script := script } c' → Same c c' ∧
              resetsOf c'.script = 0 := fun c' h' =>
            ⟨trans_of Same hpop (h' (.inl hzero)),
              Nat.le_zero.1 ((h' (.inl hzero)).resets.trans hzero.le)⟩
          refine hdone _ (resets_rule (Q := fun c' => OneEnd c' ∧ resetsOf c'.script = 0)
            steady_of_same (steady_reactions n) hres (fun c' h' => ?_) fun c' h' => ?_)
          · exact ⟨h.oneEnd.sameState (hsame c' h').1.toSameState, (hsame c' h').2⟩
          · exact drop_oneEnd (steady_reactions n) (h.oneEnd.sameState (hsame c' h').1.toSameState)
              (hsame c' h').2 fun s hs' => hfresh s ((hsame c' h').1.current.symm.trans hs')
        · exact trans_of ResetsOnce hpop.resetsOnce (perform_within (fun _ _ h => h.resetsOnce) ih
            (by simpa using hres) _)
      rw [exec_bind]
      generalize exec (perform (reactions n) r)
        { c with script := script } = p at hstep ⊢
      obtain ⟨_ | _, c1⟩ := p
      · exact hstep
      · exact trans_of ResetsOnce hstep (ih c1)

def Action.moves (a : Action) : Bool :=
  match a.jump with
  | some (.state _) => true
  | _ => false

def TcpConnection.moves (c : TcpConnection) (direction : Direction) (pkt : Tcp) : Bool :=
  match c.current with
  | none => false
  | some s =>
    (findAction s (if direction = c.input then .input else .output) pkt.flags).any Action.moves

section Packets

variable {n : ℕ} {c : TcpConnection} {pkt : Tcp}

theorem oneEnd_stays (h : Ready c) {event : TcpEvent}
    (hm : ∀ s, c.current = some s → (findAction s event pkt.flags).any Action.moves = false) :
    OneEnd (exec (trigger (reactions n) event pkt) c).2 := by
  unfold trigger
  rw [exec_get_bind]
  cases hs : c.current with
  | none => exact h.oneEnd
  | some s =>
    have hm := hm s hs
    dsimp only
    cases ha : findAction s event pkt.flags with
    | none => exact h.oneEnd
    | some a =>
      rw [ha, Option.any_some] at hm
      have hex := execute_within (fun _ _ h => h.resetsOnce) (resetsOnce_reactions n) pkt a.execute c h
      rw [exec_bind]
      generalize exec (execute (reactions n) pkt a.execute) c = r at hex ⊢
      obtain ⟨_ | _, c1⟩ := r
      · exact hex.1.oneEnd
      unfold Action.moves at hm
      cases hj : a.jump with
      | none => exact hex.1.oneEnd
      | some jump =>
        rw [hj] at hm
        refine (oneEnd_update (steady_reactions n) hex.1.oneEnd jump fun s' hs' => ?_).1
        rw [hs'] at hm
        cases hm

theorem oneEnd_emit (h : Ready c) (d : Direction)
    (hrst : pkt.flags.rst = true → resetsOf c.script = 0 ∧ ∀ s, c.current = some s → s.signals = false)
    (hm : resetsOf c.script = 0 ∨ c.moves d pkt = false) :
    OneEnd (exec (emit (reactions n) d pkt) c).2 := by
  unfold emit
  rw [exec_get_bind]
  by_cases hp : (!c.parent) = true
  · rw [if_pos hp]
    exact h.oneEnd
  rw [if_neg hp, exec_bind]
  have hsteady := signal_within (steady_reactions n) canContinue c
  have honce := signal_within (resetsOnce_reactions n) canContinue c h
  have hcalm := calm_signal (calm_reactions n) canContinue c
  generalize exec (signal (reactions n) _) c = r
    at hsteady honce hcalm ⊢
  obtain ⟨_ | _, c1⟩ := r
  · exact honce.1.oneEnd
  obtain ⟨h₁, hle, hor⟩ := honce
  dsimp only at h₁ hle hor ⊢
  by_cases h0 : resetsOf c1.script = 0
  · refine oneEnd_updatePacket (steady_reactions n) h₁.oneEnd h0 d fun hr s hs => ?_
    obtain ⟨hzero, hfresh⟩ := hrst hr
    exact hfresh s ((hsteady (.inl hzero)).current.symm.trans hs)
  · have hcur : c1.current = c.current := hor.resolve_left h0
    have hmove : c.moves d pkt = false := hm.resolve_left (by omega)
    have hrst' : ¬pkt.flags.rst = true := fun h1 => h0 (by have := (hrst h1).1; omega)
    unfold update
    rw [exec_get_bind]
    by_cases hstate : (!c1.hasState || c1.current.isNone) = true
    · rw [if_pos hstate]
      exact h₁.oneEnd
    have hstays : ∀ event, event = (if d = c.input then TcpEvent.input else .output) →
        OneEnd (exec (trigger (reactions n) event pkt) c1).2 := by
      rintro event rfl
      refine oneEnd_stays h₁ fun s hs => ?_
      unfold moves at hmove
      rwa [← hcur, hs] at hmove
    rw [hcalm.input]
    split_ifs with hd
    · exact hstays .input (if_pos hd).symm
    · exact hstays .output (if_neg hd).symm

end Packets

/-! ## Runs of one connection -/

/-- The code of an input on a connection that exists: `receive` without what opens or restarts one.
No packet reaches a dropped or closed connection. -/
def ConnInput.flowCode : ConnInput → ConnM Unit
  | packet _ script direction pkt => do
    let c ← get
    if c.cnx = .live then
      tryCatch (emit (reactions script.length) direction pkt)
        fun e => if e = .error then _close else pure ()
  | i => i.code

def flowStep (c : TcpConnection) (i : ConnInput) : TcpConnection × Unit :=
  ((exec i.flowCode (i.begin c)).2, ())

/-- A connection that was just opened, with the script of the rules for new connections. -/
def openedConnection (heap : Heap) (nextDissector : Bool) (script : List Reaction) : TcpConnection :=
  (exec (connect (reactions script.length))
    { noConnection heap nextDissector with script := script }).2

/-- Whether the current state has not triggered `end_connection`. -/
def TcpConnection.fresh (c : TcpConnection) : Bool := c.current.all fun s => !s.signals

def packetResets (script : List Reaction) (pkt : Tcp) : ℕ :=
  resetsOf script + if pkt.flags.rst then 1 else 0

/-- Whether the code ends with an error. -/
def raises (m : ConnM Unit) (c : TcpConnection) : Bool := (exec m c).1 = .error .error

/-- The input resets the connection at most once, not if the event has come already, nor while it
handles a packet whose action jumps to a state. No error is raised while a packet is handled. -/
def ResetOnce (c : TcpConnection) : ConnInput → Prop
  | .packet heap script direction pkt =>
    packetResets script pkt ≤ 1 ∧ (packetResets script pkt = 0 ∨ c.fresh = true) ∧
      (resetsOf script = 0 ∨ c.moves direction pkt = false) ∧
      (c.cnx = .live → raises (emit (reactions script.length) direction pkt)
        { c with heap := heap, script := script } = false)
  | .timeout _ _ => True
  | .call _ script => resetsOf script ≤ 1 ∧ (resetsOf script = 0 ∨ c.fresh = true)

instance decidableResetOnce (c : TcpConnection) (i : ConnInput) : Decidable (ResetOnce c i) :=
  match i with
  | .packet _ _ _ _ => inferInstanceAs (Decidable (_ ∧ _))
  | .timeout _ _ => inferInstanceAs (Decidable True)
  | .call _ _ => inferInstanceAs (Decidable (_ ∧ _))

theorem signals_of_fresh (h : c.fresh = true) (hs : c.current = some s) : s.signals = false := by
  unfold fresh at h
  rw [hs] at h
  simpa using h

theorem ready_begin (hc : OneEnd c) {script : List Reaction} (heap : Heap)
    (hle : resetsOf script ≤ 1) (hf : resetsOf script = 0 ∨ c.fresh = true) :
    Ready { c with heap := heap, script := script } :=
  ⟨⟨hc.inFailure, hc.ended, hc.closed⟩, hle, fun h1 _ hs =>
    signals_of_fresh (hf.resolve_left (by rw [h1]; decide)) hs⟩

theorem oneEnd_step (c : TcpConnection) (i : ConnInput) (hc : OneEnd c) (hi : ResetOnce c i) :
    OneEnd (flowStep c i).1 := by
  cases i with
  | packet heap script d pkt =>
    obtain ⟨hle, hf, hm, herror⟩ := hi
    unfold packetResets at hle hf
    have hready : Ready { c with heap := heap, script := script } :=
      ready_begin hc heap (by omega) (hf.imp_left fun h0 => by omega)
    show OneEnd (exec (ConnInput.flowCode _) _).2
    unfold ConnInput.flowCode
    dsimp only [ConnInput.begin]
    rw [exec_get_bind]
    by_cases hl : c.cnx = .live
    swap
    · rw [if_neg hl]
      exact hready.oneEnd
    rw [if_pos hl, exec_tryCatch]
    have hrst : pkt.flags.rst = true → resetsOf script = 0 ∧
        ∀ s, c.current = some s → s.signals = false := fun hr => by
      rw [if_pos hr] at hle hf
      exact ⟨by omega, fun s hs => signals_of_fresh (hf.resolve_left (by omega)) hs⟩
    have hemit := oneEnd_emit (n := script.length) hready d hrst hm
    have herror := herror hl
    unfold raises at herror
    generalize exec (emit _ d pkt) _ = r at hemit herror ⊢
    obtain ⟨e | _, c1⟩ := r
    · cases e with
      | abort => exact hemit
      | error => cases herror
    · exact hemit
  | timeout heap script =>
    have h0 : OneEnd { c with heap := heap, script := script } :=
      ⟨hc.inFailure, hc.ended, hc.closed⟩
    show OneEnd (exec (get >>= _) _).2
    rw [exec_get_bind]
    split_ifs
    · exact (oneEnd_update (steady_reactions _) h0 .finish fun _ h => by cases h).1
    · exact h0
  | call heap script =>
    exact (resetsOnce_reactions script.length _ (ready_begin hc heap hi.1 hi.2)).1.oneEnd

/-- Whether the rules for new connections raise an error. The connection is then closed. -/
def openingRaises (heap : Heap) (nextDissector : Bool) (script : List Reaction) : Bool :=
  raises (signal (reactions script.length) canContinue)
    (exec create { noConnection heap nextDissector with script := script }).2

theorem oneEnd_opened {heap : Heap} {nextDissector : Bool} {script : List Reaction}
    (h : resetsOf script ≤ 1) (herror : openingRaises heap nextDissector script = false) :
    OneEnd (openedConnection heap nextDissector script) := by
  refine connect_rule (fun c1 h1 _ => ?_) (signal_within (resetsOnce_reactions script.length) _ _
    ⟨⟨rfl, .inr ⟨rfl, .syn, rfl, rfl⟩, fun h0 => ?_⟩, h, fun _ s hs => ?_⟩).1.oneEnd
  · unfold openingRaises raises at herror
    rw [h1] at herror
    cases herror
  · cases h0
  · cases hs
    rfl

/-- Both sides close, one after the other. -/
def closedRun : List ConnInput :=
  handshake ++
    [.packet (twoBlocks 230) [] .up (segment 4 { fin := true, ack := true } 5 []),
      .packet (twoBlocks 240) [] .down (segment 5 { fin := true, ack := true } 9 []),
      .packet (twoBlocks 250) [] .up (segment 6 { ack := true } 6 [])]

end Haka
