import Haka.Tcp.Inspection

/-!
# The state machine of a connection

What the parts of the dissector do to the state machine of a connection, to its timer and to its
`end_connection` events. The bodies of actions only send, push and call rules. A jump leaves the
current state and enters the next, or finishes; the enter and finish actions trigger the event
`end_connection`. Rules and dissectors change the state machine only if they reset the connection,
and not at all once its state is left.
-/

namespace Haka

open Program TcpConnection

/-! ## Code that leaves the state machine alone -/

/-- The number of `end_connection` events. -/
def ended (log : List ConnEvent) : ℕ :=
  log.countP fun
    | .endConnection => true
    | _ => false

theorem ended_end (log : List ConnEvent) : ended (.endConnection :: log) = ended log + 1 :=
  List.countP_cons_of_pos rfl

/-- Whether a reaction triggers the event `reset`. -/
def Reaction.resets : Reaction → Bool
  | drop | reset | halfreset => true
  | _ => false

/-- How often a script triggers the event `reset`. -/
def resetsOf (script : List Reaction) : ℕ := script.countP Reaction.resets

/-- The state machine, and whether the connection was closed, are as before. -/
structure SameState (c c' : TcpConnection) : Prop where
  current : c'.current = c.current
  finished : c'.finished = c.finished
  inFailure : c'.inFailure = c.inFailure
  armed : c'.armed = c.armed
  hasState : c'.hasState = c.hasState
  ended : ended c'.log = ended c.log
  resets : resetsOf c'.script ≤ resetsOf c.script

/-- The state machine and the entry of the connection table are as before. -/
structure Same (c c' : TcpConnection) : Prop extends SameState c c' where
  cnx : c'.cnx = c.cnx

instance : Std.Refl SameState := ⟨fun _ => ⟨rfl, rfl, rfl, rfl, rfl, rfl, le_refl _⟩⟩

instance : IsTrans TcpConnection SameState where
  trans _ _ _ h h' := ⟨h'.current.trans h.current, h'.finished.trans h.finished,
    h'.inFailure.trans h.inFailure, h'.armed.trans h.armed, h'.hasState.trans h.hasState,
    h'.ended.trans h.ended, h'.resets.trans h.resets⟩

theorem SameState.closed {c c' : TcpConnection} (h : SameState c c') :
    SameState { c with hasState := false } { c' with hasState := false } :=
  ⟨h.current, h.finished, h.inFailure, h.armed, rfl, h.ended, h.resets⟩

instance : Std.Refl Same := ⟨fun c => ⟨refl_of SameState c, rfl⟩⟩

instance : IsTrans TcpConnection Same where
  trans _ _ _ h h' := ⟨trans_of SameState h.toSameState h'.toSameState, h'.cnx.trans h.cnx⟩

section Transmission

theorem same_setStream (c : TcpConnection) (d : Direction) (s : TcpStream) (heap : Heap) :
    Same c { c.setStream d s with heap := heap } :=
  ⟨⟨rfl, rfl, rfl, rfl, rfl, rfl, le_refl _⟩, rfl⟩

theorem same_forgereset (d : Direction) : Within Same (_forgereset d) := by
  refine within_get fun c => ?_
  cases c.stream <;> exact refl_of Same c

theorem same_clearstream : Within Same clearstream :=
  within_modify fun _ => ⟨⟨rfl, rfl, rfl, rfl, rfl, rfl, le_refl _⟩, rfl⟩

theorem same_finishStream (d : Direction) : Within Same (finishStream d) := by
  refine within_modify fun c => ?_
  cases c.stream with
  | none => exact refl_of Same c
  | some st => exact same_setStream c d _ c.heap

end Transmission

theorem resetsOf_cons_le (r : Reaction) (script : List Reaction) :
    resetsOf script ≤ resetsOf (r :: script) := by
  unfold resetsOf
  rw [List.countP_cons]
  exact Nat.le_add_right ..

variable {c : TcpConnection} {Q : TcpConnection → Prop}

theorem same_script {script : List Reaction} (h : resetsOf script ≤ resetsOf c.script) : Same c { c with script := script } :=
  ⟨⟨rfl, rfl, rfl, rfl, rfl, rfl, h⟩, rfl⟩

/-! ## Code that calls rules

A relation that holds whenever the state machine is as before, and that the code of rules and
dissectors keeps, is kept by the bodies of all actions. -/

section Rules

variable {R : TcpConnection → TcpConnection → Prop} [Std.Refl R] [IsTrans TcpConnection R]
  (hR : ∀ c c', Same c c' → R c c') {react : ConnM Unit} (hr : Within R react)

include hr

theorem signal_within (go : TcpConnection → Bool) : Within R (signal react go) := by
  refine within_get fun c => ?_
  split_ifs
  · exact within_bind hr (fun _ => within_get fun c' => by split_ifs <;> exact refl_of R c') c
  · exact refl_of R c

include hR

theorem sendPacket_within (d : Direction) (tcp : Tcp) :
    Within R (sendPacket react d tcp) := by
  refine within_bind (signal_within hr _) fun _ => within_modify fun c => hR _ _ ?_
  split_ifs
  · exact ⟨⟨rfl, rfl, rfl, rfl, rfl, rfl, le_refl _⟩, rfl⟩
  · exact refl_of Same c

theorem sendOne_within (d : Direction) : Within R (sendOne react d) := by
  refine within_get fun c => ?_
  have hset : ∀ s heap, Within R (modify fun c : TcpConnection =>
      { c.setStream d s with heap := heap } : ConnM Unit) := fun s heap =>
    within_modify fun c => hR _ _ (same_setStream c d s heap)
  cases c.stream with
  | none => exact refl_of R c
  | some st =>
    dsimp only
    rcases tcpStreamPop c.heap (st d) with ⟨heap, s, _ | tcp⟩
    · exact within_bind (hset s heap) (fun _ => within_pure false) c
    · exact within_bind (hset s heap) (fun _ => within_bind (sendPacket_within hR hr d _) fun _ =>
        within_pure true) c

theorem sendLoop_within (d : Direction) (n : ℕ) : Within R (sendLoop react d n) := by
  induction n with
  | zero => exact within_pure ()
  | succ n ih => exact within_bind (sendOne_within hR hr d) fun b => within_ite ih (within_pure _)

theorem send_within_ (d : Direction) : Within R (_send react d) := by
  refine within_get fun c => ?_
  cases c.stream with
  | none => exact refl_of R c
  | some st => exact sendLoop_within hR hr d _ c

theorem send_within (d : Option Direction) : Within R (send react d) := by
  cases d with
  | none => exact within_bind (send_within_ hR hr .up) fun _ => send_within_ hR hr .down
  | some d => exact send_within_ hR hr d

theorem sendpkt_within (pkt : Tcp) (d : Direction) :
    Within R (_sendpkt react pkt d) := by
  refine within_bind (send_within hR hr _) fun _ => within_get fun c => ?_
  cases c.stream with
  | none => exact refl_of R c
  | some st => exact sendPacket_within hR hr d _ c

theorem triggerReceive_within (d : Direction) :
    Within R (_triggerReceive react d) := by
  refine within_bind (signal_within hr _) fun _ => within_get fun c => ?_
  split_ifs
  · exact hr c
  · exact send_within hR hr _ c

theorem push_within (pkt : Tcp) (d : Direction) (finish : Bool) :
    Within R (push react pkt d finish) := by
  refine within_get fun c => ?_
  cases c.stream with
  | none => exact refl_of R c
  | some st =>
    have hlast : Within R (finishStream d >>= fun _ =>
        _triggerReceive react d) :=
      within_bind ((same_finishStream d).mono hR) fun _ => triggerReceive_within hR hr d
    have hrest := within_ite (c := finish = true) hlast (triggerReceive_within hR hr d)
    refine within_bind (R := R) (within_modify fun c => hR _ _ ?_) (fun _ => ?_) c
    · exact ⟨⟨rfl, rfl, rfl, rfl, rfl, rfl, le_refl _⟩, rfl⟩
    · exact within_ite (within_bind (within_throw _) fun _ => hrest) hrest

theorem finish_within (d : Direction) : Within R (finish react d) := by
  refine within_get fun c => ?_
  by_cases h : c.stream.isNone = true
  · rw [if_pos h]
    exact refl_of R c
  · rw [if_neg h]
    exact within_bind ((same_finishStream d).mono hR) (fun _ => triggerReceive_within hR hr d) c

theorem execute_within (pkt : Tcp) (e : Execute) : Within R (execute react pkt e) := by
  cases e with
  | nothing => exact within_pure ()
  | unexpectedPacket | invalidHandshake => exact within_throw _
  | send dir =>
    refine within_get fun c => ?_
    cases c.stream with
    | none => exact refl_of R c
    | some st =>
      refine within_bind (within_modify fun c => hR _ _ ?_)
        (fun _ => sendPacket_within hR hr _ pkt) c
      exact ⟨⟨rfl, rfl, rfl, rfl, rfl, rfl, le_refl _⟩, rfl⟩
  | forward => exact within_get fun c => sendPacket_within hR hr c.input pkt c
  | push dir last => exact within_get fun c => push_within hR hr pkt (c.role dir) last c
  | pushSwap =>
    refine within_get fun c => within_bind (push_within hR hr pkt c.output true)
      (fun _ => within_modify fun c => hR _ _ ?_) c
    exact ⟨⟨rfl, rfl, rfl, rfl, rfl, rfl, le_refl _⟩, rfl⟩
  | dofinish =>
    exact within_get fun c => within_bind (finish_within hR hr c.output)
      (fun _ => within_get fun c => sendpkt_within hR hr pkt c.output c) c
  | sendpkt dir => exact within_get fun c => sendpkt_within hR hr pkt (c.role dir) c
  | restart => exact within_modify fun c => hR _ _ ⟨⟨rfl, rfl, rfl, rfl, rfl, rfl, le_refl _⟩, rfl⟩

theorem sendReset_rule (d : Direction) {m : ConnM Unit} (hQ : ∀ c', R c c' → Q c')
    (hm : ∀ c', R c c' → Q (exec m c').2) :
    Q (exec (_forgereset d >>= fun rst =>
      sendPacket react d rst >>= fun _ => m) c).2 := by
  have hforge := hR _ _ (same_forgereset d c)
  rw [exec_bind]
  generalize exec (_forgereset d) c = r at hforge ⊢
  obtain ⟨_ | rst, c1⟩ := r
  · exact hQ c1 hforge
  · have hsend := sendPacket_within hR hr d rst c1
    dsimp only
    rw [exec_bind]
    generalize exec (sendPacket react d rst) c1 = r at hsend ⊢
    obtain ⟨_ | _, c2⟩ := r
    · exact hQ c2 (trans_of R hforge hsend)
    · exact hm c2 (trans_of R hforge hsend)

variable {r : Reaction}

/-- A reaction that resets the connection fails, or drops it after it has sent resets. -/
theorem resets_rule (hres : r.resets = true) (hQ : ∀ c', R c c' → Q c')
    (hdrop : ∀ c', R c c' → Q (exec (drop react) c').2) :
    Q (exec (perform react r) c).2 := by
  cases r with
  | ret | skip | error | abort | send | edit => cases hres
  | drop => exact hdrop c (refl_of R c)
  | reset =>
    unfold perform reset
    rw [exec_get_bind]
    by_cases he : (!c.established) = true
    · rw [if_pos he]
      exact hQ c (refl_of R c)
    · rw [if_neg he]
      exact sendReset_rule hR hr .down hQ fun c1 h1 =>
        sendReset_rule hR hr .up (fun c2 h2 => hQ c2 (trans_of R h1 h2))
          fun c2 h2 => hdrop c2 (trans_of R h1 h2)
  | halfreset =>
    unfold perform halfreset
    rw [exec_get_bind]
    by_cases he : (!c.established) = true
    · rw [if_pos he]
      exact hQ c (refl_of R c)
    · rw [if_neg he]
      exact sendReset_rule hR hr .down hQ hdrop

theorem perform_within (hres : r.resets = false) : Within R (perform react r) := by
  cases r with
  | drop | reset | halfreset => cases hres
  | ret | skip => exact within_pure ()
  | error | abort => exact within_throw _
  | send d => exact send_within hR hr d
  | edit d heap data =>
    refine within_modify fun c => hR _ _ ?_
    cases c.stream with
    | none => exact ⟨⟨rfl, rfl, rfl, rfl, rfl, rfl, le_refl _⟩, rfl⟩
    | some st => exact same_setStream c d _ heap

end Rules

/-! ## Rules that do not reset the connection -/

/-- From a script without reset, or once the state is left, rules and dissectors do not change the
state machine. -/
def Steady (c c' : TcpConnection) : Prop :=
  resetsOf c.script = 0 ∨ c.current = none → Same c c'

theorem Same.still {c' : TcpConnection} (h : Same c c')
    (hc : resetsOf c.script = 0 ∨ c.current = none) : resetsOf c'.script = 0 ∨ c'.current = none :=
  hc.imp (fun h0 => Nat.le_zero.1 (h.resets.trans h0.le)) h.current.trans

instance : Std.Refl Steady := ⟨fun c _ => refl_of Same c⟩

instance : IsTrans TcpConnection Steady where
  trans _ _ _ h h' hc := trans_of Same (h hc) (h' ((h hc).still hc))

theorem steady_of_same (c c' : TcpConnection) (h : Same c c') : Steady c c' := fun _ => h

variable {react : ConnM Unit}

theorem same_drop (hc : c.current = none) : Same c (exec (drop react) c).2 := by
  unfold drop
  rw [exec_get_bind, if_pos (by simp [hc])]
  exact refl_of Same c

theorem steady_perform (hr : Within Steady react) {r : Reaction}
    (h : r.resets = false ∨ c.current = none) :
    Steady c (exec (perform react r) c).2 := by
  cases hres : r.resets with
  | false => exact perform_within steady_of_same hr hres c
  | true =>
    have hcur : c.current = none := h.resolve_left (by simp [hres])
    refine resets_rule steady_of_same hr hres (fun _ h => h) fun c' h' _ => ?_
    have hsame := h' (.inr hcur)
    exact trans_of Same hsame (same_drop (hsame.current.trans hcur))

theorem steady_reactions (n : ℕ) : Within Steady (reactions n) := by
  induction n with
  | zero => exact within_pure ()
  | succ n ih =>
    refine within_get fun c => ?_
    split
    next => exact refl_of Steady c
    next script hs => exact fun _ => same_script (by rw [hs]; exact resetsOf_cons_le _ _)
    next r script _ hs =>
      intro hc
      have hpop : Same c { c with script := script } :=
        same_script (by rw [hs]; exact resetsOf_cons_le _ _)
      have hfree : r.resets = false ∨ c.current = none := by
        refine hc.imp_left fun h0 => ?_
        rw [hs] at h0
        simpa using List.countP_eq_zero.1 h0 r (by simp)
      refine trans_of Same hpop ?_
      have hstep : Steady { c with script := script } _ := steady_perform ih hfree
      exact within_bind_at hstep (fun _ c' _ => ih c') (hpop.still hc)

theorem sameState_close (c : TcpConnection) :
    SameState { c with hasState := false } (exec _close c).2 := by
  unfold _close clearstream
  rw [exec_modify_bind, exec_modify_bind, exec_modify]
  split_ifs <;> exact ⟨rfl, rfl, rfl, rfl, rfl, rfl, le_refl _⟩

/-- A connection is opened: what holds once the rules for new connections have run, and is kept when
the connection is closed because they raised an error. -/
theorem connect_rule (hclose : ∀ c1, exec (signal react canContinue)
      (exec create c).2 = (.error .error, c1) →
      Q c1 → Q (exec _close c1).2)
    (hsignal : Q (exec (signal react canContinue)
      (exec create c).2).2) :
    Q (exec (connect react) c).2 := by
  unfold connect
  have hcreate : exec create c = (.ok (), (exec create c).2) := rfl
  rw [exec_bind, hcreate]
  generalize (exec create c).2 = c0 at hsignal hclose ⊢
  have hlast : ∀ c1, Q c1 → Q (exec (do
      let c ← get
      if c.stream.isNone then throw .abort : ConnM Unit) c1).2 := fun c1 h1 => by
    rw [exec_get_bind]
    split_ifs <;> exact h1
  dsimp only
  rw [exec_bind, exec_tryCatch, exec_bind]
  generalize exec (signal _ _) c0 = r at hsignal hclose ⊢
  obtain ⟨e | _, c1⟩ := r
  · cases e with
    | abort => exact hlast c1 hsignal
    | error =>
      have hc1 := hclose c1 rfl hsignal
      simp only [exec_pure, if_true]
      rw [exec_bind]
      generalize exec _close c1 = r at hc1 ⊢
      obtain ⟨_ | _, c2⟩ := r
      · exact hc1
      · exact hc1
  · exact hlast c1 hsignal

/-! ## Entering and leaving states -/

/-- Whether the enter action of a state triggers `end_connection`. -/
def TcpState.signals : TcpState → Bool
  | reset | timedWait => true
  | _ => false

/-- The state machine finishes from the state `s`. -/
structure Finishes (s : TcpState) (c c' : TcpConnection) : Prop where
  finished : c'.finished = true
  current : c'.current = none
  armed : c'.armed = false
  inFailure : c'.inFailure = c.inFailure
  ended : ended c'.log = ended c.log + if s.signals then 0 else 1
  resets : resetsOf c'.script ≤ resetsOf c.script

/-- The state `s` is entered, or the state machine finishes because its enter action failed. -/
structure Enters (s : TcpState) (c c' : TcpConnection) : Prop where
  state : c'.finished = false ∧ c'.current = some s ∧
      (s.hasTimeout = true → c'.armed = true) ∧ (s ≠ .reset → c'.cnx = c.cnx) ∧
      c'.hasState = c.hasState ∧
      ended c'.log = ended c.log + (if s.signals then 1 else 0) ∨
    c'.finished = true ∧ c'.current = none ∧ ended c'.log = ended c.log + 1
  inFailure : c'.inFailure = false
  resets : resetsOf c'.script ≤ resetsOf c.script

section States

variable {react : ConnM Unit} (hr : Within Steady react) {c : TcpConnection} {s : TcpState}

include hr

theorem finishAction_ended (s : TcpState) (hc : c.current = none) :
    ∃ log b, SameState { c with log := log, hasState := b }
        (exec (finishAction react s) c).2 ∧
      ended log = ended c.log + if s.signals then 0 else 1 := by
  have hother : ∃ b, SameState { c with log := .endConnection :: c.log, hasState := b } (exec (do
      endConnection react
      _close) c).2 := by
    have hs := (signal_within hr canContinue
      { c with log := .endConnection :: c.log } (.inr hc)).toSameState
    unfold endConnection
    rw [bind_assoc, exec_modify_bind, exec_bind]
    generalize exec (signal react _) _ = r at hs ⊢
    obtain ⟨_ | _, c'⟩ := r
    · exact ⟨c.hasState, hs⟩
    · exact ⟨false, trans_of SameState hs.closed (sameState_close c')⟩
  cases s with
  | reset | timedWait => exact ⟨c.log, false, sameState_close c, rfl⟩
  | _ =>
    obtain ⟨b, hb⟩ := hother
    exact ⟨_, b, hb, ended_end _⟩

theorem instanceFinish_finishes (hf : c.finished = false) (hs : c.current = some s) :
    Returns (instanceFinish react) c fun _ c' => Finishes s c c' := by
  refine returns_get ?_
  rw [if_neg (by simp [hf]), hs]
  obtain ⟨log, b, hsame, hend⟩ :=
    finishAction_ended hr s (c := { c with current := none, armed := false }) rfl
  refine returns_bind (R := fun _ c' => c' = { c with current := none, armed := false })
    (returns_modify rfl) fun _ c1 h1 => ?_
  subst h1
  refine returns_bind (R := fun _ c' => SameState { c with
    current := none, armed := false, log := log, hasState := b } c') ?_ fun _ c2 h2 => returns_modify ?_
  · rcases hex : exec (finishAction react s)
      { c with current := none, armed := false } with ⟨_ | _, c2⟩
    · refine ⟨(), c2, by rw [exec_tryCatch, hex]; rfl, ?_⟩
      rw [hex] at hsame
      exact hsame
    · refine ⟨(), c2, by rw [exec_tryCatch, hex], ?_⟩
      rw [hex] at hsame
      exact hsame
  · exact ⟨rfl, h2.current, h2.armed, h2.inFailure, h2.ended.trans hend, h2.resets⟩

theorem instanceFail_finishes (hf : c.finished = false) (hs : c.current = some s)
    (hi : c.inFailure = false) :
    Returns (instanceFail react) c fun _ c' => Finishes s c c' := by
  refine returns_get ?_
  rw [if_neg (by simp [hi]), if_neg (by simp [hf])]
  refine returns_bind (R := fun _ c' => c' = { c with inFailure := true }) (returns_modify rfl)
    fun _ c1 h1 => ?_
  subst h1
  refine returns_bind (instanceFinish_finishes hr hf hs)
    fun _ c2 h2 => returns_modify ?_
  exact ⟨h2.finished, h2.current, h2.armed, hi.symm, h2.ended, h2.resets⟩

theorem endConnection_ended (hd : resetsOf c.script = 0) :
    Same { c with log := .endConnection :: c.log } (exec (endConnection react) c).2 := by
  exact signal_within hr _ { c with log := .endConnection :: c.log } (.inl hd)

theorem enterAction_ended (s : TcpState) (hd : resetsOf c.script = 0) :
    ∃ log, SameState { c with log := log } (exec (enterAction react s) c).2 ∧
      ended log = ended c.log + (if s.signals then 1 else 0) ∧
      (s ≠ .reset → (exec (enterAction react s) c).2.cnx = c.cnx) := by
  have hend := endConnection_ended hr hd
  cases s with
  | reset =>
    refine ⟨.endConnection :: c.log, ?_, ended_end _, fun h => absurd rfl h⟩
    unfold enterAction endConnection
    rw [bind_assoc, exec_modify_bind]
    refine within_bind_at (signal_within hr _ { c with log := .endConnection :: c.log }
      (.inl hd)).toSameState fun _ c1 _ => ?_
    refine within_bind (same_clearstream.mono fun _ _ h => h.toSameState)
      (fun _ => within_get fun c2 => ?_) c1
    split_ifs
    · exact ⟨rfl, rfl, rfl, rfl, rfl, rfl, le_refl _⟩
    · exact refl_of SameState c2
  | timedWait => exact ⟨.endConnection :: c.log, hend.toSameState, ended_end _, fun _ => hend.cnx⟩
  | _ => exact ⟨c.log, ⟨rfl, rfl, rfl, rfl, rfl, rfl, le_refl _⟩, rfl, fun _ => rfl⟩

theorem enterState_enters (s : TcpState) (hf : c.finished = false) (hi : c.inFailure = false)
    (hd : resetsOf c.script = 0) :
    Returns (enterState react s) c fun _ c' => Enters s c c' := by
  refine returns_bind (R := fun _ c' => c' = { c with
    current := some s, armed := c.current.isNone && c.armed }) (returns_modify rfl) fun _ c1 h1 => ?_
  have hd1 : resetsOf c1.script = 0 := by rw [h1]; exact hd
  obtain ⟨log, hsame, hend, hcnx⟩ := enterAction_ended hr s hd1
  refine returns_bind (R := fun _ c' => SameState { c1 with log := log } c' ∧
    (s ≠ .reset → c'.cnx = c1.cnx)) ?_ fun raised c2 h2 => ?_
  · rcases hex : exec (enterAction react s) c1 with ⟨e | _, c2⟩
    · refine ⟨some e, c2, ?_, ?_⟩
      · rw [exec_tryCatch, exec_bind, hex]
        rfl
      · rw [hex] at hsame hcnx
        exact ⟨hsame, hcnx⟩
    · refine ⟨none, c2, ?_, ?_⟩
      · rw [exec_tryCatch, exec_bind, hex]
        rfl
      · rw [hex] at hsame hcnx
        exact ⟨hsame, hcnx⟩
  obtain ⟨h2, hcnx2⟩ := h2
  subst h1
  have hfin : c2.finished = false := h2.finished.trans hf
  have hfail : c2.inFailure = false := h2.inFailure.trans hi
  have hcur : c2.current = some s := h2.current
  have hended : ended c2.log = ended c.log + (if s.signals then 1 else 0) := h2.ended.trans hend
  have hfinishes : ∀ c3, Finishes s c2 c3 → Enters s c c3 := fun c3 h3 => by
    refine ⟨.inr ⟨h3.finished, h3.current, ?_⟩, h3.inFailure.trans hfail, h3.resets.trans h2.resets⟩
    rw [h3.ended, hended]
    cases s.signals <;> rfl
  cases raised with
  | none =>
    refine returns_modify ⟨.inl ⟨hfin, hcur, fun h => ?_, hcnx2, h2.hasState, hended⟩, hfail, h2.resets⟩
    rw [h, Bool.or_true]
  | some e =>
    cases e with
    | abort => exact (instanceFinish_finishes hr hfin hcur).mono fun _ => hfinishes
    | error => exact (instanceFail_finishes hr hfin hcur hfail).mono fun _ => hfinishes

end States

end Haka
