import Haka.Stream.Fifo
import Haka.Tcp.Connection
import Haka.Tcp.Run

/-!
# Data that is forwarded was inspected

A packet waits in the streams of a connection only after it was pushed, so what `_send` forwards was
seen by the rules and the next dissector. Some actions forward the packet they are given instead:
those of the handshake, those of a connection that one side has closed, and every RST. They forward
data that nobody has seen. A run in which such actions only get packets without data forwards
nothing else than what was pushed.
-/

namespace Haka

open List Program Machine TcpConnection

/-! ## What was inspected -/

def Tcp.hasData (tcp : Tcp) : Bool := vbufferSize tcp.payload ≠ 0

def wasPushed (log : List ConnEvent) (direction : Direction) (address : ℕ) : Bool :=
  log.any fun
    | .pushed d a => d == direction && a == address
    | _ => false

/-- Whether every packet with data that was forwarded had been pushed into the stream of its
direction before. The log has the last event first. -/
def inspected : List ConnEvent → Bool
  | [] => true
  | .sent direction tcp :: log =>
    (!tcp.hasData || wasPushed log direction tcp.address) && inspected log
  | _ :: log => inspected log

/-- Whether the action a state has for a packet forwards it without a push. -/
def bypasses : TcpState → TcpEvent → TcpFlags → Bool
  | .syn, .input, f => f.syn
  | .synSent, .input, f => f.syn
  | .synSent, .output, f => f.syn && f.ack
  | .finWait1, .input, _ => true
  | .finWait1, .output, f => f.fin
  | .finWait2, .input, f => f.ack
  | .finWait2, .output, f => f.fin || f.ack
  | .closing, .input, f => f.ack || f.fin
  | .closing, .output, f => f.ack
  | .timedWait, .input, f => f.syn || f.ack
  | .timedWait, .output, f => f.ack
  | _, _, _ => false

def TcpConnection.bypassed (c : TcpConnection) (direction : Direction) (pkt : Tcp) : Bool :=
  pkt.flags.rst || match c.current with
    | none => false
    | some s => bypasses s (if direction = c.input then .input else .output) pkt.flags

/-- An input whose packet has no data or is not forwarded without a push. A SYN that opens a
connection is. -/
def Inspectable (c : TcpConnection) : ConnInput → Prop
  | .packet _ _ direction pkt =>
    pkt.hasData = false ∨
      if c.cnx = .live then c.bypassed direction pkt = false
      else ¬(pkt.flags.syn ∧ ¬pkt.flags.ack ∧
        (pkt.flags.rst ∨ c.cnx = .absent ∨ direction = .up))
  | .timeout _ _ | .call _ _ => True

instance decidableInspectable (c : TcpConnection) (i : ConnInput) : Decidable (Inspectable c i) :=
  match i with
  | .packet _ _ _ _ => inferInstanceAs (Decidable (_ ∨ _))
  | .timeout _ _ => inferInstanceAs (Decidable True)
  | .call _ _ => inferInstanceAs (Decidable True)

def Execute.pushes : Execute → Bool
  | .nothing | .unexpectedPacket | .invalidHandshake | .push _ _ | .pushSwap => true
  | _ => false

theorem pushes_or_bypasses (s : TcpState) (e : TcpEvent) (f : TcpFlags) :
    (findAction s e f).all (fun a => a.execute.pushes || bypasses s e f) = true := by
  rcases f with ⟨fin, syn, rst, ack⟩
  cases s <;> cases e <;> revert fin syn rst ack <;> decide

variable {s : TcpState} {e : TcpEvent} {f : TcpFlags} {a : Action}

theorem findAction_pushes
    (ha : findAction s e f = some a) (hb : bypasses s e f = false) : a.execute.pushes = true := by
  have h := pushes_or_bypasses s e f
  rw [ha, hb] at h
  simpa using h

theorem findAction_restart (ha : findAction s e f = some a) (hr : a.execute = .restart) :
    s = .timedWait ∧ a.jump = some .finish := by
  have hm := mem_of_find?_eq_some ha
  cases s <;> simp only [stateActions, anyActions, mem_append, mem_cons,
    not_mem_nil, or_false] at hm <;> aesop

/-! ## The invariant -/

/-- Between the inputs: the packets in the streams were pushed, the log is inspected, a connection
of the table has its parent and is not about to restart, and a finished instance has no state. -/
structure ConnInv (c : TcpConnection) : Prop where
  held : ∀ st, c.stream = some st → ∀ d, ∀ chunk ∈ (st d).current ++ (st d).queued,
    wasPushed c.log d chunk.tcp.address = true
  inspected : inspected c.log = true
  parent : c.cnx = .live → c.parent = true
  restart : c.restart = true → c.cnx ≠ .live
  finished : c.finished = true → c.current = none

/-- What rules and dissectors may change of a connection: they keep the invariant and the sides, the
log only grows, and the state is kept, left, or replaced by `reset`. -/
structure Calm (c c' : TcpConnection) : Prop where
  inv : ConnInv c → ConnInv c'
  restart : c'.restart = true → c.restart = true
  input : c'.input = c.input
  output : c'.output = c.output
  current : c'.current = c.current ∨ c'.current = none ∨
    c.current ≠ none ∧ c'.current = some .reset
  log : c.log <:+ c'.log

/-- What the handling of a packet keeps. Only a packet without data restarts the connection. -/
structure Keeps (pkt : Tcp) (c c' : TcpConnection) : Prop where
  inv : ConnInv c → ConnInv c'
  restart : c'.restart = true → c.restart = true ∨ pkt.hasData = false

instance : Std.Refl Calm := ⟨fun _ => ⟨id, id, rfl, rfl, .inl rfl, suffix_rfl⟩⟩

instance : IsTrans TcpConnection Calm where
  trans c₁ c₂ c₃ h h' := by
    refine ⟨h'.inv ∘ h.inv, h.restart ∘ h'.restart, h'.input.trans h.input,
      h'.output.trans h.output, ?_, h.log.trans h'.log⟩
    rcases h'.current with h3 | h3 | ⟨h2, h3⟩
    · rw [h3]
      exact h.current
    · exact .inr (.inl h3)
    · refine .inr (.inr ⟨?_, h3⟩)
      rcases h.current with h1 | h1 | ⟨h1, -⟩
      · rwa [← h1]
      · exact absurd h1 h2
      · exact h1

instance (pkt : Tcp) : Std.Refl (Keeps pkt) := ⟨fun _ => ⟨id, .inl⟩⟩

instance (pkt : Tcp) : IsTrans TcpConnection (Keeps pkt) where
  trans _ _ _ h h' := ⟨h'.inv ∘ h.inv, fun hr => (h'.restart hr).elim h.restart .inr⟩

theorem Calm.keeps {pkt : Tcp} {c c' : TcpConnection} (h : Calm c c') : Keeps pkt c c' :=
  ⟨h.inv, fun hr => .inl (h.restart hr)⟩

theorem Calm.current_none {c c' : TcpConnection} (h : Calm c c') (hc : c.current = none) :
    c'.current = none := by
  rcases h.current with h1 | h1 | ⟨h1, -⟩
  · rw [h1, hc]
  · exact h1
  · exact absurd hc h1

/-! ## The log and the streams -/

section Primitives

variable {c : TcpConnection} {d : Direction} {tcp : Tcp}

theorem wasPushed_mono {log log' : List ConnEvent} {a : ℕ} (hl : log <:+ log')
    (h : wasPushed log d a = true) : wasPushed log' d a = true := by
  obtain ⟨e, he, hd⟩ := any_eq_true.1 h
  exact any_eq_true.2 ⟨e, hl.subset he, hd⟩

theorem ConnInv.cons {e : ConnEvent} (hc : ConnInv c) (he : Haka.inspected (e :: c.log) = true) :
    ConnInv { c with log := e :: c.log } :=
  { hc with
    held := fun st hst d chunk hm => wasPushed_mono (suffix_cons e c.log) (hc.held st hst d chunk hm)
    inspected := he }

variable {s : TcpStream}

theorem ConnInv.setStream (hc : ConnInv c) (heap : Heap)
    (hs : ∀ chunk ∈ s.current ++ s.queued, wasPushed c.log d chunk.tcp.address = true) :
    ConnInv { c.setStream d s with heap := heap } := by
  refine { hc with held := fun st hst d' chunk hm => ?_ }
  obtain ⟨st0, hst0, rfl⟩ := Option.map_eq_some_iff.1 hst
  by_cases hd : d' = d
  · subst hd
    rw [Function.update_self] at hm
    exact hs chunk hm
  · rw [Function.update_of_ne hd] at hm
    exact hc.held st0 hst0 d' chunk hm

theorem calm_setStream (heap : Heap)
    (hs : ConnInv c → ∀ chunk ∈ s.current ++ s.queued, wasPushed c.log d chunk.tcp.address = true) :
    Calm c { c.setStream d s with heap := heap } :=
  ⟨fun hc => hc.setStream heap (hs hc), id, rfl, rfl, .inl rfl, suffix_rfl⟩

@[simp] theorem tcpStreamSeq_payload (s : TcpStream) : (tcpStreamSeq s tcp).payload = tcp.payload := by
  unfold tcpStreamSeq tcpSetSeq
  dsimp only
  split_ifs <;> rfl

@[simp] theorem popPacket_address (s : TcpStream) (chunk : TcpPacketChunk) (available : Vbuffer) :
    (popPacket s chunk available).address = chunk.tcp.address := by
  unfold popPacket tcpStreamSeq tcpSetSeq tcpActionDrop
  dsimp only
  split_ifs <;> rfl

theorem hasData_of_payload {tcp' : Tcp} (h : tcp'.payload = tcp.payload) :
    tcp'.hasData = tcp.hasData := by
  unfold Tcp.hasData
  rw [h]

theorem calm_clearstream : Within Calm clearstream :=
  within_modify fun _ =>
    ⟨fun hc => { hc with held := fun _ h => nomatch h }, id, rfl, rfl, .inl rfl, suffix_rfl⟩

theorem calm_close : Within Calm _close := by
  refine within_bind calm_clearstream fun _ => within_bind (within_modify fun c => ?_) fun _ =>
    within_modify fun c => ⟨fun hc => { hc with }, id, rfl, rfl, .inl rfl, suffix_rfl⟩
  split_ifs
  · refine ⟨fun hc => { hc with parent := ?_, restart := ?_ }, id, rfl, rfl, .inl rfl, suffix_rfl⟩
    · exact fun h => absurd h (by simp)
    · exact fun _ => by simp
  · exact refl_of Calm c

theorem calm_forgereset (d : Direction) : Within Calm (_forgereset d) := by
  refine within_get fun c => ?_
  cases c.stream <;> exact refl_of Calm c

end Primitives

/-! ## What rules and dissectors do -/

section Reactions

variable {react : ConnM Unit} (hr : Within Calm react)

include hr

theorem calm_signal (go : TcpConnection → Bool) : Within Calm (signal react go) := by
  refine within_get fun c => ?_
  split_ifs
  · exact within_bind hr (fun _ => within_get fun c' => by split_ifs <;> exact refl_of Calm c') c
  · exact refl_of Calm c

variable {c : TcpConnection} {d : Direction} {tcp : Tcp}

/-- Before a packet is forwarded the rules run; what was pushed before them still was after them. -/
theorem calm_sendPacket {c' : TcpConnection} (hc' : Calm c c') (h : ConnInv c → tcp.hasData = true →
    wasPushed c'.log d tcp.address = true) :
    Calm c (exec (sendPacket react d tcp) c').2 := by
  have hlog := calm_signal hr (fun _ => tcp.packet) c'
  have hs := trans_of Calm hc' hlog
  unfold sendPacket
  rw [exec_bind]
  rcases hsig : exec (signal react fun _ => tcp.packet) c' with ⟨_ | _, c''⟩
  · rwa [hsig] at hs
  · rw [hsig] at hlog hs
    split_ifs
    · refine ⟨fun hc => (hs.inv hc).cons ?_, hs.restart, hs.input, hs.output, hs.current,
        hs.log.trans (suffix_cons _ _)⟩
      rw [Haka.inspected, (hs.inv hc).inspected, Bool.and_true]
      cases hdata : tcp.hasData with
      | false => rfl
      | true => exact wasPushed_mono hlog.log (h hc hdata)
    · exact hs

theorem calm_sendOne (d : Direction) : Within Calm (sendOne react d) := by
  refine within_get fun c => ?_
  cases hst : c.stream with
  | none => exact refl_of Calm c
  | some st =>
    dsimp only
    rcases tcpPop_cases c.heap (st d) with hp | ⟨h', buffers, -, hp⟩ |
      ⟨chunk, current, h', buffers, available, u, hcur, -, hp⟩
    · rw [hp]
      exact calm_setStream _ fun hc => hc.held st hst d
    · rw [hp]
      exact calm_setStream _ fun hc => hc.held st hst d
    · have hheld : ConnInv c → ∀ x ∈ chunk :: (current ++ (st d).queued),
          wasPushed c.log d x.tcp.address = true := by
        intro hc
        have h := hc.held st hst d
        rwa [hcur, cons_append] at h
      rw [hp]
      rw [exec_modify_bind, exec_bind_pure]
      refine calm_sendPacket hr (calm_setStream h' fun hc x hx => hheld hc x
        (mem_cons_of_mem _ hx)) fun hc _ => ?_
      rw [tcpStreamAck_address, popPacket_address]
      exact hheld hc chunk mem_cons_self

theorem calm_sendLoop (d : Direction) (n : ℕ) : Within Calm (sendLoop react d n) := by
  induction n with
  | zero => exact within_pure ()
  | succ n ih => exact within_bind (calm_sendOne hr d) fun b => within_ite ih (within_pure _)

theorem calm_send_ (d : Direction) : Within Calm (_send react d) := by
  refine within_get fun c => ?_
  cases c.stream with
  | none => exact refl_of Calm c
  | some st => exact calm_sendLoop hr d _ c

theorem calm_send (d : Option Direction) : Within Calm (send react d) := by
  cases d with
  | none => exact within_bind (calm_send_ hr .up) fun _ => calm_send_ hr .down
  | some d => exact calm_send_ hr d

theorem calm_sendReset (d : Direction) {α : Type} {m : ConnM α} (hm : Within Calm m) :
    Within Calm (_forgereset d >>= fun rst =>
      sendPacket react d rst >>= fun _ => m) := by
  intro c
  refine within_bind_at (calm_forgereset d c) fun rst c' hc' =>
    within_bind_at (calm_sendPacket hr (refl_of Calm c') fun _ hdata => ?_) fun _ c'' _ => hm c''
  unfold _forgereset at hc'
  rw [exec_get_bind] at hc'
  cases hst : c.stream with
  | none =>
    rw [hst] at hc'
    cases hc'
  | some st =>
    rw [hst] at hc'
    cases hc'
    cases hdata

theorem calm_endConnection : Within Calm (endConnection react) := by
  refine within_bind (within_modify fun c => ?_) fun _ => calm_signal hr _
  exact ⟨fun hc => hc.cons hc.inspected, id, rfl, rfl, .inl rfl, suffix_cons _ _⟩

theorem calm_finishAction (s : TcpState) : Within Calm (finishAction react s) := by
  cases s
  case reset | timedWait => exact calm_close
  all_goals exact within_bind (calm_endConnection hr) fun _ => calm_close

theorem calm_enterAction (s : TcpState) : Within Calm (enterAction react s) := by
  cases s with
  | reset =>
    refine within_bind (calm_endConnection hr) fun _ => within_bind calm_clearstream fun _ =>
      within_get fun c => ?_
    split_ifs
    · exact ⟨fun hc => { hc with parent := fun h => absurd h (by simp), restart := fun _ => by simp },
        id, rfl, rfl, .inl rfl, suffix_rfl⟩
    · exact refl_of Calm c
  | established =>
    exact within_modify fun c => ⟨fun hc => { hc with }, id, rfl, rfl, .inl rfl, suffix_rfl⟩
  | timedWait => exact calm_endConnection hr
  | _ => exact within_pure ()

theorem calm_instanceFinish : Within Calm (instanceFinish react) := by
  refine within_get fun c => ?_
  have hleave : Calm c { c with current := none, armed := false } :=
    ⟨fun hc => { hc with finished := fun _ => rfl }, id, rfl, rfl, .inr (.inl rfl), suffix_rfl⟩
  have hdone : ∀ c', c'.current = none → Calm c' { c' with finished := true } := fun c' h =>
    ⟨fun hc => { hc with finished := fun _ => h }, id, rfl, rfl, .inl rfl, suffix_rfl⟩
  split_ifs
  · exact refl_of Calm c
  · cases hs : c.current with
    | none => exact hdone c hs
    | some s =>
      refine trans_of Calm hleave ?_
      have hfin : Within Calm (tryCatch (finishAction react s) fun _ => pure ()) :=
        within_tryCatch (calm_finishAction hr s) fun _ => within_pure ()
      refine within_bind_at (hfin _) fun _ c' hc' => hdone c' ?_
      have h := hfin { c with current := none, armed := false }
      rw [hc'] at h
      exact h.current_none rfl

theorem calm_instanceFail : Within Calm (instanceFail react) := by
  refine within_get fun c => ?_
  have hflag : ∀ b, Within Calm (modify fun c : TcpConnection => { c with inFailure := b } :
      ConnM Unit) := fun b => within_modify fun c => ⟨fun hc => { hc with }, id, rfl, rfl, .inl rfl, suffix_rfl⟩
  split_ifs
  · exact refl_of Calm c
  · exact refl_of Calm c
  · exact within_bind (hflag true) (fun _ => within_bind (calm_instanceFinish hr) fun _ =>
      hflag false) c

theorem calm_entered {c : TcpConnection} (s : TcpState) :
    Calm { c with current := some s } (exec (enterState react s) c).2 := by
  have harmed : ∀ (c : TcpConnection) (b : Bool), Calm c { c with armed := b } := fun c b =>
    ⟨fun hc => { hc with }, id, rfl, rfl, .inl rfl, suffix_rfl⟩
  unfold enterState
  rw [exec_modify_bind]
  refine trans_of Calm (harmed { c with current := some s } (c.current.isNone && c.armed)) ?_
  refine within_bind (within_tryCatch (within_bind (calm_enterAction hr s) fun _ => within_pure _)
    fun _ => within_pure _) (fun raised => ?_) _
  cases raised with
  | none => exact within_modify fun c => harmed c _
  | some e =>
    cases e with
    | abort => exact calm_instanceFinish hr
    | error => exact calm_instanceFail hr

theorem calm_drop : Within Calm (drop react) := by
  refine within_get fun c => ?_
  split_ifs with h
  · exact refl_of Calm c
  · have hcur : c.current ≠ none := fun h0 => h (by simp [h0])
    unfold instanceUpdate
    rw [exec_get_bind]
    by_cases hf : c.finished = true
    · rw [if_pos hf]
      exact refl_of Calm c
    · rw [if_neg hf]
      have hset : Calm c { c with current := some .reset } :=
        ⟨fun hc => { hc with finished := fun h0 => absurd h0 hf }, id, rfl, rfl,
          .inr (.inr ⟨hcur, rfl⟩), suffix_rfl⟩
      exact trans_of Calm hset (calm_entered hr .reset)

theorem calm_reset : Within Calm (reset react) := by
  refine within_get fun c => ?_
  by_cases h : (!c.established) = true
  · rw [if_pos h]
    exact refl_of Calm c
  · rw [if_neg h]
    exact calm_sendReset hr .down (calm_sendReset hr .up (calm_drop hr)) c

theorem calm_halfreset : Within Calm (halfreset react) := by
  refine within_get fun c => ?_
  by_cases h : (!c.established) = true
  · rw [if_pos h]
    exact refl_of Calm c
  · rw [if_neg h]
    exact calm_sendReset hr .down (calm_drop hr) c

theorem calm_perform (r : Reaction) : Within Calm (perform react r) := by
  cases r with
  | ret | skip => exact within_pure ()
  | send d => exact calm_send hr d
  | drop => exact calm_drop hr
  | reset => exact calm_reset hr
  | halfreset => exact calm_halfreset hr
  | edit d heap data =>
    refine within_modify fun c => ?_
    cases hst : c.stream with
    | none => exact ⟨fun hc => { hc with held := fun _ h => nomatch h }, id, rfl, rfl, .inl rfl, suffix_rfl⟩
    | some st => exact calm_setStream heap fun hc => hc.held st hst d
  | error | abort => exact within_throw _

end Reactions

/-- **Rules and dissectors are calm.** Whatever they do in a call, they forward only packets that were
pushed. -/
theorem calm_reactions (n : ℕ) : Within Calm (reactions n) := by
  induction n with
  | zero => exact within_pure ()
  | succ n ih =>
    refine within_get fun c => ?_
    have hscript : ∀ script, Calm c { c with script := script } := fun _ =>
      ⟨fun hc => { hc with }, id, rfl, rfl, .inl rfl, suffix_rfl⟩
    split
    · exact refl_of Calm c
    · exact hscript _
    · rw [exec_modify_bind]
      exact trans_of Calm (hscript _) (within_bind (calm_perform ih _) (fun _ => ih) _)

/-! ## What the actions do -/

theorem push_waiting {Q : ℕ → Prop} {h : Heap} {s : TcpStream} {tcp : Tcp}
    (hs : ∀ chunk ∈ s.current ++ s.queued, Q chunk.tcp.address) (ht : Q tcp.address) :
    ∀ chunk ∈ (tcpStreamPush h s tcp).2.1.current ++ (tcpStreamPush h s tcp).2.1.queued,
      Q chunk.tcp.address := by
  refine push_rule (P := fun _ s l => ∀ chunk ∈ s.current ++ l, Q chunk.tcp.address)
    (fun _ s c l _ hP x hx => ?_) (fun _ s l l' hp hP x hx => hP x ?_) (fun _ _ _ _ hP => hP) ?_ hs
  · have hc : Q c.tcp.address := hP c (mem_append_right _ mem_cons_self)
    change x ∈ (s.current ++ [_]) ++ l at hx
    rw [append_assoc, mem_append, mem_append, mem_singleton] at hx
    rcases hx with hx | rfl | hx
    · exact hP x (mem_append_left _ hx)
    · exact hc
    · exact hP x (mem_append_right _ (mem_cons_of_mem _ hx))
  · exact (List.Perm.append_left s.current hp).mem_iff.1 hx
  · intro x hx
    rw [mem_append, mem_cons] at hx
    rcases hx with hx | rfl | hx
    · exact hs x (mem_append_left _ hx)
    · exact ht
    · exact hs x (mem_append_right _ hx)

section Actions

variable {react : ConnM Unit} (hr : Within Calm react) {pkt : Tcp}

theorem calm_finishStream (d : Direction) : Within Calm (finishStream d) := by
  refine within_modify fun c => ?_
  cases hst : c.stream with
  | none => exact refl_of Calm c
  | some st => exact calm_setStream c.heap fun hc => hc.held st hst d

variable {c : TcpConnection} {d : Direction}

theorem keeps_restart (hcur : c.current = some .timedWait) (hdata : pkt.hasData = false) :
    Keeps pkt c (exec (instanceUpdate react .finish) { c with restart := true }).2 := by
  refine ⟨fun hc => ?_, fun _ => .inr hdata⟩
  have hf : c.finished = false := by
    cases hf : c.finished with
    | false => rfl
    | true =>
      have h := hc.finished hf
      rw [hcur] at h
      cases h
  have hlive : (if c.parent then CnxEntry.absent else c.cnx) ≠ .live := by
    split_ifs with hp
    · simp
    · exact fun h => hp (hc.parent h)
  have hexec : (exec (instanceUpdate react .finish) { c with restart := true }).2 =
      { c with
        current := none, armed := false, stream := none, parent := false, hasState := false,
        finished := true, cnx := if c.parent then .absent else c.cnx, restart := true } := by
    unfold instanceUpdate instanceFinish finishAction
      _close clearstream
    cases c.parent <;> simp [hf, hcur, exec_bind, exec_tryCatch]
  rw [hexec]
  exact ⟨fun _ h => (nomatch h), hc.inspected, fun h => absurd h hlive, fun _ => hlive, fun _ => rfl⟩

theorem Calm.bypassed {c' : TcpConnection} (h : Calm c c') (hb : c.bypassed d pkt = false) : c'.bypassed d pkt = false := by
  unfold TcpConnection.bypassed at hb ⊢
  rw [Bool.or_eq_false_iff] at hb ⊢
  refine ⟨hb.1, ?_⟩
  rw [h.input]
  rcases h.current with h | h | ⟨-, h⟩
  · rw [h]
    exact hb.2
  · rw [h]
  · rw [h]
    split_ifs <;> rfl

theorem connInv_create (hc : ConnInv c) : ConnInv (exec create c).2 :=
  ⟨fun st hst d => by cases hst; cases d <;> exact fun _ h => (nomatch h), hc.inspected, fun _ => rfl,
    fun h => (nomatch h), fun h => (nomatch h)⟩

include hr

theorem calm_sendEmpty (h : pkt.hasData = false) (d : Direction) :
    Within Calm (sendPacket react d pkt) := fun c =>
  calm_sendPacket hr (refl_of Calm c) fun _ h' => by rw [h] at h'; cases h'

theorem calm_sendpkt (h : pkt.hasData = false) (d : Direction) :
    Within Calm (_sendpkt react pkt d) := by
  refine within_bind (calm_send hr _) fun _ => within_get fun c => ?_
  cases c.stream with
  | none => exact refl_of Calm c
  | some st =>
    refine calm_sendEmpty hr ?_ d c
    rw [← h]
    exact hasData_of_payload (by simp)

theorem calm_triggerReceive (d : Direction) :
    Within Calm (_triggerReceive react d) := by
  refine within_bind (calm_signal hr _) fun _ => within_get fun c => ?_
  split_ifs
  · exact hr c
  · exact calm_send hr _ c

theorem calm_push (d : Direction) (finish : Bool) :
    Within Calm (push react pkt d finish) := by
  refine within_get fun c => ?_
  split
  next => exact refl_of Calm c
  next st hst =>
    have hw : ConnInv c → ∀ chunk ∈ (tcpStreamPush c.heap (st d) pkt).2.1.current ++
        (tcpStreamPush c.heap (st d) pkt).2.1.queued,
        wasPushed (.pushed d pkt.address :: c.log) d chunk.tcp.address = true := fun hc =>
      push_waiting (Q := fun a => wasPushed (.pushed d pkt.address :: c.log) d a = true)
        (fun chunk hm => wasPushed_mono (suffix_cons _ _) (hc.held st hst d chunk hm)) (by simp [wasPushed])
    generalize (vbufferStreamIsfinished _ && _) = refused
    generalize tcpStreamPush c.heap (st d) pkt = r at hw ⊢
    obtain ⟨heap, s, _, _⟩ := r
    rw [exec_modify_bind]
    refine trans_of Calm ⟨fun hc => (hc.cons hc.inspected).setStream
      heap (hw hc), id, rfl, rfl, .inl rfl, suffix_cons _ _⟩ ?_
    cases refused
    · cases finish
      · exact calm_triggerReceive hr d _
      · exact within_bind (calm_finishStream d) (fun _ => calm_triggerReceive hr d) _
    · exact refl_of Calm _

theorem calm_finish (d : Direction) : Within Calm (finish react d) := by
  refine within_get fun c => ?_
  by_cases h : c.stream.isNone = true
  · rw [if_pos h]
    exact refl_of Calm c
  · rw [if_neg h]
    exact within_bind (calm_finishStream d) (fun _ => calm_triggerReceive hr d) c

theorem keeps_instanceUpdate (jump : Jump) :
    Within (Keeps pkt) (instanceUpdate react jump) := by
  refine within_get fun c => ?_
  by_cases hf : c.finished = true
  · rw [if_pos hf]
    exact refl_of (Keeps pkt) c
  · rw [if_neg hf]
    cases jump with
    | fail => exact (calm_instanceFail hr c).keeps
    | finish => exact (calm_instanceFinish hr c).keeps
    | state s =>
      have hset : Keeps pkt c { c with current := some s } :=
        ⟨fun hc => { hc with finished := fun h0 => absurd h0 hf }, .inl⟩
      exact trans_of (Keeps pkt) hset (calm_entered hr s).keeps

/-- The body of an action keeps the invariant if it forwards only what is in the streams, or if the
packet has no data. -/
theorem keeps_execute {e : Execute} (he : pkt.hasData = false ∨ e.pushes = true)
    (hrestart : e ≠ .restart) : Within (Keeps pkt) (execute react pkt e) := by
  have hcalm : ∀ {α : Type} {m : ConnM α}, Within Calm m → Within (Keeps pkt) m :=
    fun hm => hm.mono fun _ _ => Calm.keeps
  have hempty : e.pushes = false → pkt.hasData = false := fun h0 => by
    rcases he with he | he
    · exact he
    · rw [h0] at he
      cases he
  cases e with
  | nothing => exact within_pure ()
  | unexpectedPacket | invalidHandshake => exact within_throw _
  | send dir =>
    refine within_get fun c => ?_
    cases hst : c.stream with
    | none => exact refl_of (Keeps pkt) c
    | some st =>
      have hset : Calm c (c.setStream (c.role dir) (tcpStreamInit (st (c.role dir)) (pkt.seq + 1))) :=
        calm_setStream c.heap fun hc => hc.held st hst _
      exact (trans_of Calm hset (calm_sendEmpty hr (hempty rfl) _ _)).keeps
  | forward => exact within_get fun c => (calm_sendEmpty hr (hempty rfl) c.input c).keeps
  | push dir last => exact within_get fun c => (calm_push hr _ last c).keeps
  | pushSwap =>
    refine within_get fun c => within_bind (hcalm (calm_push hr c.output true)) (fun _ => ?_) c
    exact within_modify fun c => ⟨fun hc => { hc with }, .inl⟩
  | dofinish =>
    refine within_get fun c => within_bind (hcalm (calm_finish hr c.output)) (fun _ => ?_) c
    exact within_get fun c => (calm_sendpkt hr (hempty rfl) c.output c).keeps
  | sendpkt dir => exact within_get fun c => (calm_sendpkt hr (hempty rfl) _ c).keeps
  | restart => exact absurd rfl hrestart

theorem keeps_trigger {event : TcpEvent}
    (h : pkt.hasData = false ∨ ∀ s, c.current = some s → bypasses s event pkt.flags = false) :
    Keeps pkt c (exec (trigger react event pkt) c).2 := by
  unfold trigger
  rw [exec_get_bind]
  cases hcur : c.current with
  | none => exact refl_of (Keeps pkt) c
  | some s =>
    dsimp only
    cases ha : findAction s event pkt.flags with
    | none => exact refl_of (Keeps pkt) c
    | some a =>
      have hpush : pkt.hasData = false ∨ a.execute.pushes = true :=
        h.imp_right fun h => findAction_pushes ha (h s hcur)
      dsimp only
      by_cases hrestart : a.execute = .restart
      · obtain ⟨rfl, hjump⟩ := findAction_restart ha hrestart
        have hdata : pkt.hasData = false := hpush.resolve_right (by simp [hrestart, Execute.pushes])
        rw [hrestart, hjump]
        exact keeps_restart hcur hdata
      · refine within_bind (keeps_execute hr hpush hrestart) (fun _ => ?_) c
        cases a.jump with
        | none => exact within_pure ()
        | some jump => exact keeps_instanceUpdate hr jump

theorem keeps_update (h : pkt.hasData = false ∨ c.bypassed d pkt = false) :
    Keeps pkt c (exec (update react d pkt) c).2 := by
  have hevent : pkt.hasData = false ∨ ∀ s, c.current = some s →
      bypasses s (if d = c.input then .input else .output) pkt.flags = false := by
    refine h.imp_right fun h s hs => ?_
    unfold TcpConnection.bypassed at h
    rw [hs, Bool.or_eq_false_iff] at h
    exact h.2
  unfold update
  rw [exec_get_bind]
  split_ifs with h0 hrst hd
  · exact refl_of (Keeps pkt) c
  · have hdata : pkt.hasData = false := h.resolve_right (by simp [TcpConnection.bypassed, hrst])
    exact within_bind_at (calm_sendpkt hr hdata d c).keeps fun _ c' _ => keeps_trigger hr (.inl hdata)
  · rw [if_pos hd] at hevent
    exact keeps_trigger hr hevent
  · rw [if_neg hd] at hevent
    exact keeps_trigger hr hevent

theorem keeps_emit (h : pkt.hasData = false ∨ c.bypassed d pkt = false) :
    Keeps pkt c (exec (emit react d pkt) c).2 := by
  unfold emit
  rw [exec_get_bind]
  by_cases hp : (!c.parent) = true
  · rw [if_pos hp]
    exact refl_of (Keeps pkt) c
  · rw [if_neg hp]
    have hs := calm_signal hr canContinue c
    refine within_bind_at hs.keeps fun _ c' hc' => keeps_update hr (h.imp_right ?_)
    rw [hc'] at hs
    exact hs.bypassed

theorem calm_connect (c : TcpConnection) :
    Calm (exec create c).2 (exec (connect react) c).2 := by
  unfold connect
  rw [exec_bind]
  refine within_bind (within_tryCatch (within_bind (calm_signal hr _) fun _ => within_pure _)
    fun _ => within_pure _) (fun raised => ?_) _
  have hlast : Within Calm (do
      let c ← get
      if c.stream.isNone then throw .abort : ConnM Unit) :=
    within_get fun c => by split_ifs <;> exact refl_of Calm c
  by_cases h : raised = some .error
  · rw [if_pos h]
    exact within_bind calm_close fun _ => within_bind (within_throw _) fun _ => hlast
  · rw [if_neg h]
    exact hlast

variable {again : ConnM Unit}

theorem keeps_handled
    (hagain : pkt.hasData = false → Within (Keeps pkt) again) (hrestart : c.restart = false)
    (h : pkt.hasData = false ∨ c.bypassed d pkt = false) :
    Keeps pkt c (exec (tryCatch (do
        emit react d pkt
        let c ← get
        if c.restart then again)
      fun e => if e = .error then _close else pure ()) c).2 := by
  have hemit := keeps_emit hr h
  refine within_tryCatch_at (within_bind_at hemit fun _ c' hc' => ?_) fun e c' _ => ?_
  · rw [exec_get_bind]
    split_ifs with hr'
    · rw [hc'] at hemit
      rcases hemit.restart hr' with h0 | h0
      · rw [hrestart] at h0
        cases h0
      · exact hagain h0 c'
    · exact refl_of (Keeps pkt) c'
  · split_ifs
    · exact (calm_close c').keeps
    · exact refl_of (Keeps pkt) c'

/-- **A packet keeps the invariant** when it has no data or is not forwarded without a push. -/
theorem connInv_receive (hagain : pkt.hasData = false → Within (Keeps pkt) again)
    (h : pkt.hasData = false ∨ if c.cnx = .live then c.bypassed d pkt = false
      else ¬(pkt.flags.syn ∧ ¬pkt.flags.ack ∧
        (pkt.flags.rst ∨ c.cnx = .absent ∨ d = .up))) (hc : ConnInv c) : ConnInv (exec (receive react again d pkt) c).2 := by
  unfold receive
  rw [exec_get_bind]
  by_cases hlive : c.cnx = .live
  · have hrestart : c.restart = false := by
      cases hr : c.restart with
      | false => rfl
      | true => exact absurd hlive (hc.restart hr)
    rw [if_neg (not_not.2 hlive)]
    rw [if_pos hlive] at h
    have hdir : (if c.cnx = .absent then .up else d) = d := by simp [hlive]
    rw [hdir]
    exact (keeps_handled hr hagain hrestart h).inv hc
  · rw [if_pos hlive]
    rw [if_neg hlive] at h
    by_cases hsyn : (pkt.flags.syn && !pkt.flags.ack) = true
    · rw [if_pos hsyn]
      have hcalm := calm_connect hr c
      have hc' := hcalm.inv (connInv_create hc)
      have hb : pkt.hasData = false ∨ (exec create c).2.bypassed
          (if c.cnx = .absent then .up else d) pkt = false := by
        refine h.imp_right fun h => ?_
        -- the SYN is for the side that did not open the connection
        have hsyn' : pkt.flags.syn = true ∧ ¬pkt.flags.ack = true := by simpa using hsyn
        obtain ⟨hrst, habsent, hd⟩ : ¬pkt.flags.rst = true ∧ ¬c.cnx = .absent ∧ ¬d = .up := by
          simpa [hsyn'.1, hsyn'.2] using h
        rw [if_neg habsent]
        unfold TcpConnection.bypassed
        rw [Bool.or_eq_false_iff]
        refine ⟨by simpa using hrst, ?_⟩
        change bypasses .syn (if d = .up then .input else .output) pkt.flags = false
        rw [if_neg hd]
        rfl
      rw [exec_bind]
      rcases he : exec (connect react) c with ⟨_ | _, c1⟩
      · rw [he] at hc'
        exact hc'
      · rw [he] at hc' hcalm
        have hrestart : c1.restart = false := by
          cases h0 : c1.restart with
          | false => rfl
          | true => exact absurd (hcalm.restart h0) (by simp [create])
        exact (keeps_handled hr hagain hrestart (hb.imp_right hcalm.bypassed)).inv hc'
    · rw [if_neg hsyn]
      exact hc

end Actions

/-! ## Runs -/

theorem connInv_noConnection (heap : Heap) (nextDissector : Bool) :
    ConnInv (noConnection heap nextDissector) :=
  ⟨fun _ h => (nomatch h), rfl, fun h => (nomatch h), fun h => (nomatch h), fun _ => rfl⟩

theorem connInv_step (c : TcpConnection) (i : ConnInput) (hc : ConnInv c) (hi : Inspectable c i) :
    ConnInv (connStep c i).1 := by
  have hbegin : ConnInv (i.begin c) := by cases i <;> exact { hc with }
  cases i with
  | packet heap script d pkt =>
    have hr := calm_reactions script.length
    refine connInv_receive hr (fun hdata => ?_) hi hbegin
    have hagain : pkt.hasData = false → Within (Keeps pkt) (pure () : ConnM Unit) :=
      fun _ => within_pure ()
    exact fun c' => ⟨connInv_receive hr hagain (.inl hdata), fun _ => .inr hdata⟩
  | timeout heap script =>
    have htimer : ∀ pkt, Within (Keeps pkt) (ConnInput.timeout heap script).code := by
      refine fun pkt => within_get fun c => ?_
      split_ifs
      · exact keeps_instanceUpdate (calm_reactions _) .finish c
      · exact refl_of (Keeps pkt) c
    exact (htimer (dataPacket 0 ⟨[], endChunk 0 true⟩) _).inv hbegin
  | call heap script => exact (calm_reactions script.length _).inv hbegin

/-- **Data is inspected.** In a run where no packet with data reaches an action that forwards it
without a push, every packet with data that is forwarded was pushed before. -/
theorem data_inspected (heap : Heap) (nextDissector : Bool) (is : List ConnInput)
    (hg : Guarded connStep Inspectable (noConnection heap nextDissector) is) :
    inspected (run connStep (noConnection heap nextDissector) is).1.log = true :=
  (run_invariant connInv_step (connInv_noConnection heap nextDissector) hg).inspected

def segment (address : ℕ) (flags : TcpFlags) (seq : UInt32) (body : List Chunk) : Tcp :=
  ⟨address, true, true, flags, seq, 0, ⟨body, endChunk (100 + address) true⟩⟩

def handshake : List ConnInput :=
  [.packet (twoBlocks 200) [] .up (segment 1 { syn := true } 4 []),
    .packet (twoBlocks 210) [] .down (segment 2 { syn := true, ack := true } 8 []),
    .packet (twoBlocks 220) [] .up (segment 3 { ack := true } 5 [])]

/-- Data in both directions, then a FIN with data. -/
def inspectedRun : List ConnInput :=
  handshake ++
    [.packet (twoBlocks 230) [] .up (segment 4 { ack := true } 5 (blockBuffer 20 1 2).body),
      .packet (twoBlocks 240) [] .down (segment 5 { ack := true } 9 (blockBuffer 30 2 1).body),
      .packet (twoBlocks 250) [] .up
        (segment 6 { fin := true, ack := true } 7 (blockBuffer 40 2 1).body)]

theorem data_inspected_both_sides :
    Guarded connStep Inspectable (noConnection (twoBlocks 190) false) inspectedRun ∧
    (run connStep (noConnection (twoBlocks 190) false) inspectedRun).1.log.length = 10 ∧
    inspected (run connStep (noConnection (twoBlocks 190) false) inspectedRun).1.log = true := by
  have hg : Guarded connStep Inspectable (noConnection (twoBlocks 190) false) inspectedRun := by
    decide +kernel
  exact ⟨hg, by decide +kernel, data_inspected (twoBlocks 190) false inspectedRun hg⟩

/-- One side closes, its FIN is acknowledged, and the other side still sends data. -/
def halfClosedRun : List ConnInput :=
  handshake ++
    [.packet (twoBlocks 230) [] .up (segment 4 { fin := true, ack := true } 5 []),
      .packet (twoBlocks 240) [] .down (segment 5 { ack := true } 9 []),
      .packet (twoBlocks 250) [] .down (segment 6 { ack := true } 9 (blockBuffer 30 2 1).body)]

def finDataRun : List ConnInput :=
  handshake ++
    [.packet (twoBlocks 230) [] .up (segment 4 { fin := true, ack := true } 5 []),
      .packet (twoBlocks 240) [] .down
        (segment 5 { fin := true, ack := true } 9 (blockBuffer 30 2 1).body)]

def resetDataRun : List ConnInput :=
  handshake ++
    [.packet (twoBlocks 230) [] .up (segment 4 { rst := true } 5 (blockBuffer 30 2 1).body)]

/-- **Data that nobody sees.** After the FIN of one side, data of the other side, also in its FIN, is
forwarded without a push, and so is the data of a RST. -/
theorem closing_data_not_inspected :
    inspected (run connStep (noConnection (twoBlocks 190) false) halfClosedRun).1.log = false ∧
    inspected (run connStep (noConnection (twoBlocks 190) false) finDataRun).1.log = false ∧
    inspected (run connStep (noConnection (twoBlocks 190) false) resetDataRun).1.log = false := by
  decide +kernel

end Haka
