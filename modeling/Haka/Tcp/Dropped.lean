import Haka.Tcp.Ending

/-!
# Dropped connections

A connection is dropped by the state `reset`, which it enters when it is reset. As long as no rule or
dissector resets it inside an action that jumps to another state, a dropped connection stays in
`reset`, with its timer running, until it finishes. A dissector that drops the connection while it
gets the data of such an action leaves the machine in `reset`, and the jump of the action then takes
it elsewhere.
-/

namespace Haka

open Program Machine TcpConnection

/-! ## The invariant -/

/-- The machine is in the state `reset` or has left it. -/
def InReset (c : TcpConnection) : Prop := c.current = none ∨ c.current = some .reset

/-- A state is left only to finish, the machine is not about to fail, and a dropped connection has
no state but `reset`. -/
structure Settled (c : TcpConnection) : Prop where
  finished : c.finished = true ↔ c.current = none
  inFailure : c.inFailure = false
  dropped : c.cnx = .dropped → InReset c

def TimerRuns (c : TcpConnection) : Prop :=
  ∀ s, c.current = some s → s.hasTimeout = true → c.armed = true

/-- What holds between the inputs. -/
structure Rests (c : TcpConnection) : Prop where
  settled : Settled c
  timer : TimerRuns c

/-- What rules and dissectors do: they may take the machine to `reset` or let it finish. -/
def Drops (c c' : TcpConnection) : Prop :=
  Settled c → Settled c' ∧ (TimerRuns c' ∨ c'.current = c.current ∧ c'.armed = c.armed) ∧
    (c'.current = c.current ∨ InReset c')

instance : Std.Refl Drops := ⟨fun _ h => ⟨h, .inr ⟨rfl, rfl⟩, .inl rfl⟩⟩

variable {c c' : TcpConnection}

theorem InReset.congr (h : InReset c) (hc : c'.current = c.current) : InReset c' :=
  h.imp hc.trans hc.trans

theorem TimerRuns.congr (h : TimerRuns c) (hc : c'.current = c.current) (ha : c'.armed = c.armed) : TimerRuns c' :=
  fun s hs ho => ha.trans (h s (hc.symm.trans hs) ho)

instance : IsTrans TcpConnection Drops where
  trans c₁ c₂ c₃ h h' h₁ := by
    obtain ⟨h₂, ht, hc⟩ := h h₁
    obtain ⟨h₃, ht', hc'⟩ := h' h₂
    refine ⟨h₃, ?_, ?_⟩
    · rcases ht' with ht' | ⟨hcur, harm⟩
      · exact .inl ht'
      · exact ht.imp (·.congr hcur harm) fun h0 => ⟨hcur.trans h0.1, harm.trans h0.2⟩
    · rcases hc' with h0 | h0
      · exact hc.imp h0.trans (·.congr h0)
      · exact .inr h0

variable {s : TcpState}

theorem Settled.running (h : Settled c) (hc : c.current = some s) : c.finished = false := by
  cases hf : c.finished with
  | false => rfl
  | true => exact absurd (h.finished.1 hf) (by simp [hc])

theorem Settled.same (h : Settled c) (hs : Same c c') : Settled c' :=
  ⟨by rw [hs.finished, hs.current]; exact h.finished, hs.inFailure.trans h.inFailure, fun h0 =>
    (h.dropped (hs.cnx.symm.trans h0)).congr hs.current⟩

theorem drops_of_same (c c' : TcpConnection) (hs : Same c c') : Drops c c' :=
  fun h => ⟨h.same hs, .inr ⟨hs.current, hs.armed⟩, .inl hs.current⟩

theorem Settled.of_finishes (h : Settled c) (hf : Finishes s c c') : Settled c' :=
  ⟨⟨fun _ => hf.current, fun _ => hf.finished⟩, hf.inFailure.trans h.inFailure,
    fun _ => .inl hf.current⟩

theorem Rests.of_finished (h : Settled c) (hc : c.current = none) : Rests c :=
  ⟨h, fun s hs => by rw [hc] at hs; cases hs⟩

theorem Rests.drops (h : Rests c) (hd : Drops c c') : Rests c' ∧ (InReset c → InReset c') := by
  obtain ⟨hs, ht, hc⟩ := hd h.settled
  exact ⟨⟨hs, ht.elim id fun h0 => h.timer.congr h0.1 h0.2⟩, fun h0 => hc.elim h0.congr id⟩

/-! ## Jumps -/

section Jumps

variable {react : ConnM Unit} (hs : Within Steady react) (hr : Within Drops react)
  {c : TcpConnection}

include hs

theorem rests_finish (h : Settled c) : Rests (exec (instanceFinish react) c).2 ∧
    (exec (instanceFinish react) c).2.current = none := by
  cases hc : c.current with
  | none =>
    have hf : c.finished = true := h.finished.2 hc
    unfold instanceFinish
    rw [exec_get_bind, if_pos hf]
    exact ⟨.of_finished h hc, hc⟩
  | some s =>
    obtain ⟨_, hfin⟩ := (instanceFinish_finishes hs (h.running hc) hc).state
    exact ⟨.of_finished (h.of_finishes hfin) hfin.current, hfin.current⟩

theorem rests_fail (h : Settled c) : Rests (exec (instanceFail react) c).2 ∧
    (exec (instanceFail react) c).2.current = none := by
  cases hc : c.current with
  | none =>
    have hf : c.finished = true := h.finished.2 hc
    unfold instanceFail
    rw [exec_get_bind, if_neg (by simp [h.inFailure]), if_pos hf]
    exact ⟨.of_finished h hc, hc⟩
  | some s =>
    obtain ⟨_, hfin⟩ := (instanceFail_finishes hs (h.running hc) hc h.inFailure).state
    exact ⟨.of_finished (h.of_finishes hfin) hfin.current, hfin.current⟩

omit hs in
include hr in
theorem drops_endConnection : Within Drops (endConnection react) :=
  within_bind (within_modify fun _ h =>
    ⟨⟨h.finished, h.inFailure, h.dropped⟩, .inr ⟨rfl, rfl⟩, .inl rfl⟩)
    fun _ => signal_within hr _

omit hs in
include hr in
theorem settled_enterAction (h : Settled c) (hc : c.current = some s) :
    Settled (exec (enterAction react s) c).2 ∧
    ((exec (enterAction react s) c).2.current = some s ∨
      InReset (exec (enterAction react s) c).2) := by
  obtain ⟨h1, -, hcur⟩ := drops_endConnection hr c h
  rw [hc] at hcur
  cases s with
  | reset =>
    have hreset := hcur.elim .inr id
    unfold enterAction
    rw [exec_bind]
    generalize exec (endConnection react) c = r at h1 hreset ⊢
    obtain ⟨_ | _, c1⟩ := r
    · exact ⟨h1, .inr hreset⟩
    dsimp only at h1 hreset ⊢
    unfold clearstream
    rw [exec_modify_bind, exec_get_bind]
    split_ifs
    · exact ⟨⟨h1.finished, h1.inFailure, fun _ => hreset⟩, .inr hreset⟩
    · exact ⟨⟨h1.finished, h1.inFailure, h1.dropped⟩, .inr hreset⟩
  | timedWait => exact ⟨h1, hcur⟩
  | _ => exact ⟨⟨h.finished, h.inFailure, h.dropped⟩, .inl hc⟩

omit hs in
theorem enterAction_current (hs : s.hasTimeout = false) :
    (exec (enterAction react s) c).2.current = c.current := by
  cases s with
  | reset | timedWait => cases hs
  | _ => rfl

include hr

theorem rests_enterState (s : TcpState) (h : Settled c) (hf : c.finished = false)
    (hd : s = .reset ∨ c.cnx ≠ .dropped) :
    Rests (exec (enterState react s) c).2 ∧
    ((exec (enterState react s) c).2.current = some s ∨
      InReset (exec (enterState react s) c).2) := by
  unfold enterState
  rw [exec_modify_bind]
  have h1 : Settled { c with current := some s, armed := c.current.isNone && c.armed } :=
    ⟨by simp [hf], h.inFailure, fun h0 => .inr (by rw [hd.resolve_right (not_not.2 h0)])⟩
  obtain ⟨h2, hcur⟩ := settled_enterAction hr h1 rfl
  have hkeep : s.hasTimeout = false → (exec (enterAction react s)
      { c with current := some s, armed := c.current.isNone && c.armed }).2.current = some s :=
    enterAction_current
  rw [exec_bind, exec_tryCatch, exec_bind]
  generalize exec (enterAction react s) _ = r at h2 hcur hkeep ⊢
  obtain ⟨e | _, c2⟩ := r
  · cases e with
    | abort => exact (rests_finish hs h2).imp_right fun h0 => .inr (.inl h0)
    | error => exact (rests_fail hs h2).imp_right fun h0 => .inr (.inl h0)
  · refine ⟨⟨⟨h2.finished, h2.inFailure, h2.dropped⟩, fun s' hs' ho => ?_⟩, hcur⟩
    cases hto : s.hasTimeout with
    | true => exact Bool.or_true _
    | false =>
      obtain rfl : s = s' := Option.some.inj ((hkeep hto).symm.trans hs')
      rw [hto] at ho
      cases ho

theorem rests_update (jump : Jump) (h : Settled c)
    (hd : ∀ s, jump = .state s → s = .reset ∨ c.cnx ≠ .dropped) :
    Rests (exec (instanceUpdate react jump) c).2 ∧
    ((∀ s, jump = .state s → s = .reset) →
      InReset (exec (instanceUpdate react jump) c).2) := by
  unfold instanceUpdate
  rw [exec_get_bind]
  by_cases hf : c.finished = true
  · rw [if_pos hf]
    exact ⟨.of_finished h (h.finished.1 hf), fun _ => .inl (h.finished.1 hf)⟩
  rw [if_neg hf]
  cases jump with
  | fail => exact (rests_fail hs h).imp_right fun h0 _ => .inl h0
  | finish => exact (rests_finish hs h).imp_right fun h0 _ => .inl h0
  | state s =>
    refine (rests_enterState hs hr s h (by simpa using hf) (hd s rfl)).imp_right fun hcur hs => ?_
    rw [hs s rfl] at hcur ⊢
    exact hcur.elim .inr id

theorem drops_drop : Within Drops (drop react) := by
  refine within_get fun c => ?_
  split_ifs with hc
  · exact refl_of Drops c
  · intro h
    obtain ⟨hrest, hin⟩ := rests_update hs hr (.state .reset) h fun s hs' => by cases hs'; exact .inl rfl
    exact ⟨hrest.settled, .inl hrest.timer, .inr (hin fun s hs' => by cases hs'; rfl)⟩

end Jumps

/-! ## Rules and dissectors -/

theorem drops_reactions (n : ℕ) : Within Drops (reactions n) := by
  induction n with
  | zero => exact within_pure ()
  | succ n ih =>
    have hperform : ∀ r, Within Drops (perform (reactions n) r) := by
      intro r c
      cases hres : r.resets with
      | true =>
        exact resets_rule drops_of_same ih hres (fun _ h' => h') fun c' h' =>
          trans_of Drops h' (drops_drop (steady_reactions n) ih c')
      | false => exact perform_within drops_of_same ih hres c
    refine within_get fun c => ?_
    split
    next => exact refl_of Drops c
    next script hs =>
      exact drops_of_same _ _ (same_script (by rw [hs]; exact resetsOf_cons_le _ _))
    next r script _ hs =>
      have hpop : Same c { c with script := script } :=
        same_script (by rw [hs]; exact resetsOf_cons_le _ _)
      exact trans_of Drops (drops_of_same _ _ hpop) (within_bind (hperform r) (fun _ => ih) _)

/-! ## Packets -/

/-- Whether the body of an action calls rules or dissectors. Those for `send_packet` are called for
every packet it sends. -/
def Execute.calls : Execute → Bool
  | send _ | forward | push _ _ | pushSwap | dofinish | sendpkt _ => true
  | _ => false

def Action.interruptible (a : Action) : Bool := a.execute.calls && a.moves

/-- Whether the action for a packet calls rules and dissectors and then jumps to a state. -/
def TcpConnection.interruptible (c : TcpConnection) (direction : Direction) (pkt : Tcp) : Bool :=
  match c.current with
  | none => false
  | some s =>
    !pkt.flags.rst &&
      (findAction s (if direction = c.input then .input else .output) pkt.flags).any
        Action.interruptible

theorem same_execute (react : ConnM Unit) (pkt : Tcp) {e : Execute} (he : e.calls = false) :
    Within Same (execute react pkt e) := by
  cases e with
  | nothing => exact within_pure ()
  | unexpectedPacket | invalidHandshake => exact within_throw _
  | restart => exact within_modify fun _ => ⟨⟨rfl, rfl, rfl, rfl, rfl, rfl, le_refl _⟩, rfl⟩
  | _ => cases he

theorem findAction_reset {e : TcpEvent} {f : TcpFlags} {a : Action}
    (ha : findAction .reset e f = some a) : a.execute.calls = false ∧
      ∀ s, a.jump = some (.state s) → s = .reset := by
  cases e <;> cases ha <;> exact ⟨rfl, fun s hs => by cases hs; try rfl⟩

section Packets

variable {n : ℕ} {c : TcpConnection} {pkt : Tcp}

/-- An event comes, and no rule resets the connection if the action for it is interruptible. -/
theorem rests_trigger (h : Rests c) (event : TcpEvent)
    (hi : resetsOf c.script = 0 ∧ c.cnx ≠ .dropped ∨ ∀ s, c.current = some s →
      (findAction s event pkt.flags).any Action.interruptible = false) :
    Rests (exec (trigger (reactions n) event pkt) c).2 ∧
    (InReset c →
      InReset (exec (trigger (reactions n) event pkt) c).2) := by
  unfold trigger
  rw [exec_get_bind]
  cases hs : c.current with
  | none => exact ⟨h, id⟩
  | some s =>
    dsimp only
    cases ha : findAction s event pkt.flags with
    | none => exact ⟨h, id⟩
    | some a =>
      have hsteady := execute_within steady_of_same (steady_reactions n) pkt a.execute c
      have hdrops := execute_within drops_of_same (drops_reactions n) pkt a.execute c
      have hsame := same_execute (reactions n) pkt (e := a.execute)
      rw [exec_bind]
      replace hsame := fun he => hsame he c
      generalize exec (execute (reactions n) pkt a.execute) c = r
        at hsteady hdrops hsame ⊢
      obtain ⟨h1, hin⟩ := h.drops hdrops
      obtain ⟨_ | _, c1⟩ := r
      · exact ⟨h1, hin⟩
      cases hj : a.jump with
      | none => exact ⟨h1, hin⟩
      | some jump =>
        have hreset : InReset c → ∀ s', jump = .state s' → s' = .reset := fun h0 s' hs' => by
          obtain rfl : s = .reset :=
            Option.some.inj (hs.symm.trans (h0.resolve_left (by simp [hs])))
          exact (findAction_reset ha).2 s' (by rw [hj, hs'])
        refine (rests_update (steady_reactions n) (drops_reactions n) jump h1.settled
          fun s' hs' => ?_).imp_right fun hup h0 => hup (hreset h0)
        rcases hi with ⟨hzero, hcnx⟩ | hi
        · exact .inr fun h0 => hcnx ((hsteady (.inl hzero)).cnx.symm.trans h0)
        -- the jump follows a body without calls, so the entry is what it was
        have hcalls : a.execute.calls = false := by
          have hi := hi s hs
          rw [ha, Option.any_some] at hi
          simpa [Action.interruptible, Action.moves, hj, hs'] using hi
        by_cases hcnx : c.cnx = .dropped
        · exact .inl (hreset (h.settled.dropped hcnx) s' hs')
        · exact .inr fun h0 => hcnx ((hsame hcalls).cnx.symm.trans h0)

/-- A packet comes to a connection. -/
theorem rests_emit (h : Rests c) (hl : c.cnx = .live) (d : Direction)
    (hi : resetsOf c.script = 0 ∨ c.interruptible d pkt = false) :
    Rests (exec (emit (reactions n) d pkt) c).2 ∧
    (InReset c → InReset (exec (emit (reactions n) d pkt) c).2) := by
  unfold emit
  rw [exec_get_bind]
  by_cases hp : (!c.parent) = true
  · rw [if_pos hp]
    exact ⟨h, id⟩
  rw [if_neg hp, exec_bind]
  have hsteady := signal_within (steady_reactions n) canContinue c
  have hdrops := signal_within (drops_reactions n) canContinue c
  have hcalm := calm_signal (calm_reactions n) canContinue c
  generalize exec (signal (reactions n) _) c = r
    at hsteady hdrops hcalm ⊢
  obtain ⟨h₁, hin⟩ := h.drops hdrops
  have hcur := (hdrops h.settled).2.2
  obtain ⟨_ | _, c1⟩ := r
  · exact ⟨h₁, hin⟩
  dsimp only at h₁ hin hcur hsteady ⊢
  suffices hupd : Rests (exec (update (reactions n) d pkt) c1).2 ∧
      (InReset c1 → InReset (exec (update (reactions n) d pkt) c1).2) from
    ⟨hupd.1, fun h0 => hupd.2 (hin h0)⟩
  unfold update
  rw [exec_get_bind]
  by_cases hstate : (!c1.hasState || c1.current.isNone) = true
  · rw [if_pos hstate]
    exact ⟨h₁, id⟩
  rw [if_neg hstate]
  by_cases hr : pkt.flags.rst = true
  · rw [if_pos hr, exec_bind]
    have hsend := sendpkt_within drops_of_same (drops_reactions n) pkt d c1
    generalize exec (_sendpkt _ pkt d) c1 = r at hsend ⊢
    obtain ⟨h2, hin2⟩ := h₁.drops hsend
    obtain ⟨_ | _, c2⟩ := r
    · exact ⟨h2, hin2⟩
    · refine (rests_trigger h2 .reset (.inr fun s _ => ?_)).imp_right fun h0 h1 => h0 (hin2 h1)
      cases s <;> rfl
  have htrigger : ∀ event, event = (if d = c.input then TcpEvent.input else .output) →
      Rests (exec (trigger (reactions n) event pkt) c1).2 ∧
      (InReset c1 →
        InReset (exec (trigger (reactions n) event pkt) c1).2) := by
    rintro event rfl
    refine rests_trigger h₁ _ ?_
    rcases hi with hzero | hi
    · have hsame := hsteady (.inl hzero)
      exact .inl ⟨Nat.le_zero.1 (hsame.resets.trans hzero.le), by rw [hsame.cnx, hl]; decide⟩
    refine .inr fun s hs => ?_
    rcases hcur with hcur | hcur
    · unfold interruptible at hi
      rw [← hcur, hs] at hi
      simpa [hr] using hi
    · obtain rfl : s = .reset := Option.some.inj (hs.symm.trans (hcur.resolve_left (by simp [hs])))
      split_ifs <;> rfl
  rw [hcalm.input]
  split_ifs with hd
  · exact htrigger .input (if_pos hd).symm
  · exact htrigger .output (if_neg hd).symm

end Packets

/-! ## Runs of one connection -/

/-- No rule or dissector resets the connection inside an action that then jumps to a state. -/
def Uninterrupted (c : TcpConnection) : ConnInput → Prop
  | .packet _ script direction pkt => resetsOf script = 0 ∨ c.interruptible direction pkt = false
  | _ => True

instance decidableUninterrupted (c : TcpConnection) (i : ConnInput) : Decidable (Uninterrupted c i) :=
  match i with
  | .packet _ _ _ _ => inferInstanceAs (Decidable (_ ∨ _))
  | .timeout _ _ | .call _ _ => inferInstanceAs (Decidable True)

theorem rests_close (h : Rests c) :
    Rests (exec _close c).2 ∧ (InReset c → InReset (exec _close c).2) := by
  have hsame := sameState_close c
  have hcnx : (exec _close c).2.cnx = .dropped → c.cnx = .dropped := by
    unfold _close clearstream
    rw [exec_modify_bind, exec_modify_bind, exec_modify]
    split_ifs
    · exact fun h0 => by cases h0
    · exact id
  refine ⟨⟨⟨?_, hsame.inFailure.trans h.settled.inFailure, fun h0 => ?_⟩,
    h.timer.congr hsame.current hsame.armed⟩, fun h0 => h0.congr hsame.current⟩
  · rw [hsame.finished, hsame.current]
    exact h.settled.finished
  · exact (h.settled.dropped (hcnx h0)).congr hsame.current

theorem rests_step (c : TcpConnection) (i : ConnInput) (hc : Rests c) (hi : Uninterrupted c i) :
    Rests (flowStep c i).1 ∧ (InReset c → InReset (flowStep c i).1) := by
  have hbegin : Rests (i.begin c) := by
    cases i <;> exact ⟨⟨hc.settled.finished, hc.settled.inFailure, hc.settled.dropped⟩, hc.timer⟩
  cases i with
  | packet heap script d pkt =>
    show Rests (exec (ConnInput.flowCode _) _).2 ∧ (InReset c → InReset (exec (ConnInput.flowCode _) _).2)
    unfold ConnInput.flowCode
    dsimp only [ConnInput.begin] at hbegin ⊢
    rw [exec_get_bind]
    by_cases hl : c.cnx = .live
    swap
    · rw [if_neg hl]
      exact ⟨hbegin, id⟩
    rw [if_pos hl, exec_tryCatch]
    obtain ⟨hemit, hin⟩ := rests_emit hbegin hl d hi
    generalize exec (emit _ d pkt) _ = r at hemit hin ⊢
    obtain ⟨e | _, c1⟩ := r
    · dsimp only
      split_ifs
      · exact (rests_close hemit).imp_right fun h0 h1 => h0 (hin h1)
      · exact ⟨hemit, hin⟩
    · exact ⟨hemit, hin⟩
  | timeout heap script =>
    show Rests (exec (get >>= _) _).2 ∧ (InReset c → InReset (exec (get >>= _) _).2)
    rw [exec_get_bind]
    split_ifs
    · exact (rests_update (steady_reactions _) (drops_reactions _) .finish hbegin.settled
        fun _ h => by cases h).imp_right fun h0 _ => h0 fun _ h => by cases h
    · exact ⟨hbegin, id⟩
  | call heap script => exact hbegin.drops (drops_reactions script.length _)

theorem rests_opened (heap : Heap) (nextDissector : Bool) (script : List Reaction) :
    Rests (openedConnection heap nextDissector script) := by
  refine connect_rule (fun c _ h => (rests_close h).1) (Rests.drops ⟨⟨?_, rfl, fun h => ?_⟩, ?_⟩
    (signal_within (drops_reactions script.length) _ _)).1
  · exact ⟨fun h => (by cases h), fun h => (by cases h)⟩
  · cases h
  · intro s hs ho
    cases hs
    cases ho

/-- **Dropped connections stay in `reset`.** In every run in which no rule resets the connection
inside an action that then jumps to a state, a dropped connection is in the state `reset`, with its
timer running, or has finished. -/
theorem dropped_stays_in_reset (heap : Heap) (nextDissector : Bool) (script : List Reaction)
    (is js : List ConnInput)
    (hg : Guarded flowStep Uninterrupted (openedConnection heap nextDissector script) (is ++ js))
    (hd : (run flowStep (openedConnection heap nextDissector script) is).1.cnx = .dropped) :
    (run flowStep (openedConnection heap nextDissector script) (is ++ js)).1.current = some .reset ∧
      (run flowStep (openedConnection heap nextDissector script) (is ++ js)).1.armed = true ∨
    (run flowStep (openedConnection heap nextDissector script) (is ++ js)).1.current = none ∧
      (run flowStep (openedConnection heap nextDissector script) (is ++ js)).1.finished = true := by
  rw [guarded_append] at hg
  rw [run_append]
  have hrests := run_invariant (fun c i hc hi => (rests_step c i hc hi).1)
    (rests_opened heap nextDissector script) hg.1
  have hstep : ∀ c i, Rests c ∧ InReset c → Uninterrupted c i →
      Rests (flowStep c i).1 ∧ InReset (flowStep c i).1 := fun c i hc hi =>
    (rests_step c i hc.1 hi).imp_right fun h0 => h0 hc.2
  obtain ⟨hend, hcur | hcur⟩ := run_invariant hstep ⟨hrests, hrests.settled.dropped hd⟩ hg.2
  · exact .inr ⟨hcur, hend.settled.finished.2 hcur⟩
  · exact .inl ⟨hcur, hend.timer _ hcur rfl⟩

def dropOnData (flags : TcpFlags) : List ConnInput :=
  handshake ++ [.packet (twoBlocks 230) [.ret, .ret, .drop] .up
    (segment 4 flags 5 (blockBuffer 20 1 2).body)]

theorem dropped_stays_in_reset_data :
    (run flowStep (openedConnection (twoBlocks 190) true []) (dropOnData { ack := true })).1.cnx =
      .dropped ∧
    ((run flowStep (openedConnection (twoBlocks 190) true []) (dropOnData { ack := true } ++
        [.packet (twoBlocks 240) [] .up (segment 5 { ack := true } 7 [])])).1.current = some .reset ∧
      (run flowStep (openedConnection (twoBlocks 190) true []) (dropOnData { ack := true } ++
        [.packet (twoBlocks 240) [] .up (segment 5 { ack := true } 7 [])])).1.armed = true ∨
    (run flowStep (openedConnection (twoBlocks 190) true []) (dropOnData { ack := true } ++
        [.packet (twoBlocks 240) [] .up (segment 5 { ack := true } 7 [])])).1.current = none ∧
      (run flowStep (openedConnection (twoBlocks 190) true []) (dropOnData { ack := true } ++
        [.packet (twoBlocks 240) [] .up (segment 5 { ack := true } 7 [])])).1.finished = true) :=
  ⟨by decide +kernel, dropped_stays_in_reset (twoBlocks 190) true [] (dropOnData { ack := true })
    [.packet (twoBlocks 240) [] .up (segment 5 { ack := true } 7 [])] (by decide +kernel)
    (by decide +kernel)⟩

/-- The dissector drops the connection when it gets the data of a FIN: the entry is dropped, and the
machine goes on to `fin_wait_1`. -/
theorem dropped_leaves_reset : (run flowStep (openedConnection (twoBlocks 190) true [])
      (dropOnData { fin := true, ack := true })).1.cnx = .dropped ∧
    (run flowStep (openedConnection (twoBlocks 190) true [])
      (dropOnData { fin := true, ack := true })).1.current = some .finWait1 ∧
    (run flowStep (openedConnection (twoBlocks 190) true [])
      (dropOnData { fin := true, ack := true })).1.armed = false := by
  decide +kernel

end Haka
