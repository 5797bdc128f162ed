import NakamotoP2p.Fsm.PingMgr.Invariant

namespace NakamotoP2p.Fsm.PingMgr

/-- `p` stays silent: no `pong` from it is accepted, and it is neither negotiated nor
disconnected. -/
def Obs.Silent (p : PeerId) (o : Obs) : Prop :=
  o.acceptedFrom p = none ∧ o.negotiates p = false ∧ o.disconnects p = false

/-- A step of a run in which `p` stays silent. -/
def SilentStep (p : PeerId) (t t' : Traced) : Prop :=
  Step t t' ∧ ∃ new, t'.history = new ++ t.history ∧ ∀ o ∈ new, o.Silent p

namespace PingManager

variable (m : PingManager) (now : LocalTime)

theorem receivedPong_pingTimeout (addr : PeerId) (nonce : UInt64) :
    (m.receivedPong now addr nonce).2.pingTimeout = m.pingTimeout := by
  unfold receivedPong
  split <;> (try split) <;> (try split) <;> rfl

theorem receivedEvent_pingTimeout (event : Event) : (m.receivedEvent now event).pingTimeout = m.pingTimeout := by
  cases event with
  | messageReceived sender message =>
    cases message with
    | ping nonce => simp [receivedEvent, receivedPing_eq]
    | pong nonce => exact m.receivedPong_pingTimeout now sender nonce
    | other command => rfl
  | _ => rfl

/-- A `pong` that is not accepted leaves the whole manager as it was. -/
theorem receivedPong_rejected {addr : PeerId} {nonce : UInt64}
    (rejected : (m.receivedPong now addr nonce).1 = false) : (m.receivedPong now addr nonce).2 = m := by
  by_cases awaited : ∃ peer since, m.peers.lookup addr = some peer ∧ peer.state = .awaitingPong nonce since
  · obtain ⟨peer, since, found, awaiting⟩ := awaited
    rw [m.receivedPong_of_awaiting now found awaiting] at rejected
    cases rejected
  · rw [m.receivedPong_of_not_awaiting now fun peer since found awaiting => awaited ⟨peer, since, found, awaiting⟩]

/-- An event on which `p` stays silent leaves `p`'s record as it was. -/
theorem receivedEvent_silent {p : PeerId} (event : Event)
    (silent : (Obs.delivered now event (m.pongAccepted now event)).Silent p) :
    (m.receivedEvent now event).peers.lookup p = m.peers.lookup p := by
  obtain ⟨unaccepted, unnegotiated, undisconnected⟩ := silent
  by_cases other : event.peer? = some p
  swap
  · exact m.receivedEvent_lookup_other now event other
  cases event with
  | peerNegotiated addr =>
    obtain rfl : addr = p := Option.some.inj other
    simp [Obs.negotiates] at unnegotiated
  | peerDisconnected addr =>
    obtain rfl : addr = p := Option.some.inj other
    simp [Obs.disconnects] at undisconnected
  | messageReceived sender message =>
    obtain rfl : sender = p := Option.some.inj other
    cases message with
    | ping nonce => simp [receivedEvent, receivedPing_eq]
    | pong nonce =>
      have rejected : (m.receivedPong now sender nonce).1 = false := by
        cases accepted : (m.receivedPong now sender nonce).1
        · rfl
        · simp [pongAccepted, accepted, Obs.acceptedFrom] at unaccepted
      simp only [receivedEvent, m.receivedPong_rejected now rejected]
    | other command => rfl
  | _ => cases other

end PingManager

/-- A tick keeps a record that awaits its `pong`. -/
theorem TickStep.awaiting_kept {pingTimeout : LocalDuration} {now : LocalTime} {p : PeerId} {peer' : Peer}
    {ios : List Io} {nonce : UInt64} {since : LocalTime} {latencies : List LocalDuration}
    (step : TickStep pingTimeout now p ⟨p, .awaitingPong nonce since, latencies⟩ peer' ios) :
    peer' = ⟨p, .awaitingPong nonce since, latencies⟩ := by
  cases step <;> rfl

variable {p : PeerId} {nonce : UInt64} {since : LocalTime} {latencies : List LocalDuration}

theorem PingManager.timerExpired_awaiting (m : PingManager) (now : LocalTime)
    (found : m.peers.lookup p = some ⟨p, .awaitingPong nonce since, latencies⟩) :
    (m.timerExpired now).peers.lookup p = some ⟨p, .awaitingPong nonce since, latencies⟩ := by
  obtain ⟨peer', _, _, _, found', step, -⟩ := (m.timerExpired_run now).lookup m.peers.table.nodupKeys found
  rw [← step.awaiting_kept]
  exact found'

/-- A step on which `p` stays silent keeps `p`'s awaiting record and the timeout. -/
theorem SilentStep.awaiting {t t' : Traced} (move : SilentStep p t t')
    (found : t.manager.peers.lookup p = some ⟨p, .awaitingPong nonce since, latencies⟩) :
    t'.manager.peers.lookup p = some ⟨p, .awaitingPong nonce since, latencies⟩ ∧
      t'.manager.pingTimeout = t.manager.pingTimeout := by
  obtain ⟨step, new, grown, silent⟩ := move
  cases step with
  | receivedEvent now event =>
    have called : Obs.delivered now event (t.manager.pongAccepted now event) ∈ new := by
      have split : ((pushed t.manager (t.manager.receivedEvent now event)).map (.enqueued now)).reverse ++
          [.delivered now event (t.manager.pongAccepted now event)] ++ t.history = new ++ t.history := by
        rw [← grown]; simp [Traced.receivedEvent, record]
      simp [← List.append_cancel_right split]
    exact ⟨(t.manager.receivedEvent_silent now event (silent _ called)).trans found,
      t.manager.receivedEvent_pingTimeout now event⟩
  | timerExpired now peers relaid =>
    exact ⟨PingManager.timerExpired_awaiting { t.manager with peers } now
      ((Peers.lookup_perm relaid p).trans found), rfl⟩
  | next => exact ⟨found, rfl⟩

/-- Along a run in which `p` stays silent, its awaiting record and the timeout stay as they
are. -/
theorem SilentStep.run_awaiting {t t' : Traced} (run : Relation.ReflTransGen (SilentStep p) t t')
    (found : t.manager.peers.lookup p = some ⟨p, .awaitingPong nonce since, latencies⟩) :
    t'.manager.peers.lookup p = some ⟨p, .awaitingPong nonce since, latencies⟩ ∧
      t'.manager.pingTimeout = t.manager.pingTimeout := by
  induction run with
  | refl => exact ⟨found, rfl⟩
  | tail _ move ih =>
    obtain ⟨kept, timeout⟩ := move.awaiting ih.1
    exact ⟨kept, timeout.trans ih.2⟩

/-- An awaiting record's ping was sent no later than any reading that follows the history. -/
theorem Tracked.awaiting_since_le {m : PingManager} {h : List Obs} (tracked : Tracked m h p)
    {now : LocalTime} (clock : ∀ o ∈ h, o.time ≤ now) {peer : Peer}
    (found : m.peers.lookup p = some peer) (awaiting : peer.state = .awaitingPong nonce since) :
    since ≤ now :=
  clock _ (ping_mem_of_lastPing (lastPing_of_lifetime (tracked.awaiting peer nonce since found awaiting).1))

/-- After a tick at `now` that finds `p`'s record awaiting, or idle with the interval passed,
the record awaits a ping sent no later than `now`. -/
theorem Tracked.tick_awaits {m : PingManager} {h : List Obs} (tracked : Tracked m h p) {now : LocalTime}
    (clock : ∀ o ∈ h, o.time ≤ now) {peer : Peer} (found : m.peers.lookup p = some peer)
    (due : ∀ since, peer.state = .idle since → pingInterval ≤ now - since) (peers : Peers)
    (relaid : peers.table.entries.Perm m.peers.table.entries) :
    ∃ nonce since latencies, ({ m with peers }.timerExpired now).peers.lookup p =
      some ⟨p, .awaitingPong nonce since, latencies⟩ ∧ since ≤ now := by
  let before := { m with peers }
  obtain ⟨peer', _, _, _, found', step, -⟩ :=
    (before.timerExpired_run now).lookup before.peers.table.nodupKeys ((Peers.lookup_perm relaid p).trans found)
  cases step with
  | timedOut => exact ⟨_, _, _, found', tracked.awaiting_since_le clock found rfl⟩
  | awaiting => exact ⟨_, _, _, found', tracked.awaiting_since_le clock found rfl⟩
  | due => exact ⟨_, _, _, found', LocalTime.le_iff.mpr (Nat.le_refl _)⟩
  | @resting since _ early =>
    have elapsed := due since rfl
    simp only [LocalDuration.lt_iff, LocalDuration.le_iff] at early elapsed
    omega

/-- A peer that stops answering is disconnected: once a tick at `τ₁` finds it awaiting or due,
while it stays silent every tick a timeout after `τ₁` disconnects it, in any table order. -/
theorem silent_peer_detected_by_ticks {t₁ t₂ : Traced} (reach : Reachable t₁) {peer : Peer}
    {τ₁ τ₂ : LocalTime} (found : t₁.manager.peers.lookup p = some peer)
    (clock : ∀ o ∈ t₁.history, o.time ≤ τ₁) (due : ∀ since, peer.state = .idle since → pingInterval ≤ τ₁ - since)
    (peers : Peers) (relaid : peers.table.entries.Perm t₁.manager.peers.table.entries)
    (silent : Relation.ReflTransGen (SilentStep p)
      (Traced.timerExpired ⟨{ t₁.manager with peers }, t₁.history, t₁.handed⟩ τ₁) t₂)
    (late : t₁.manager.pingTimeout ≤ τ₂ - τ₁) :
    ∀ peers : Peers, peers.table.entries.Perm t₂.manager.peers.table.entries →
      let before := { t₂.manager with peers }
      Io.disconnect p (.peerTimeout "ping") ∈ pushed before (before.timerExpired τ₂) := by
  obtain ⟨nonce, since, latencies, awaits, early⟩ :=
    (reach.tracked p).tick_awaits clock found due peers relaid
  obtain ⟨kept, timeout⟩ := SilentStep.run_awaiting silent awaits
  intro peers₂ relaid₂ before
  rw [(before.timerExpired_run τ₂).disconnects before.peers.table.nodupKeys p]
  refine ⟨nonce, since, latencies, (Peers.lookup_perm relaid₂ p).trans kept, ?_⟩
  change t₂.manager.pingTimeout ≤ τ₂ - since
  rw [timeout]
  change t₁.manager.pingTimeout ≤ τ₂ - since
  simp only [LocalDuration.le_iff, LocalTime.le_iff, LocalTime.sub_millis] at late early ⊢
  omega

/-- A peer that answers only with a stale nonce is found awaiting by a tick, and disconnected
by the tick a timeout later. -/
theorem unanswered_peer_reported_after_timeout :
    let a : PeerId := .v4 0x7f000001 8333
    let t₁ := Traced.receivedEvent ⟨.new (.fromSecs 600) ⟨fun n => n.toUInt64⟩, [], []⟩ ⟨0⟩ (.peerNegotiated a ⟨0⟩ 0)
    let ticked := t₁.timerExpired ⟨1000⟩
    let t₂ := ticked.receivedEvent ⟨2000⟩ (.messageReceived a (.pong 7))
    Reachable t₁ ∧ t₁.manager.peers.lookup a = some ⟨a, .awaitingPong 1 ⟨0⟩, []⟩ ∧
      (∀ o ∈ t₁.history, o.time ≤ ⟨1000⟩) ∧
      (∀ since, State.awaitingPong 1 ⟨0⟩ = .idle since → pingInterval ≤ (⟨1000⟩ : LocalTime) - since) ∧
      Relation.ReflTransGen (SilentStep a) ticked t₂ ∧
      t₁.manager.pingTimeout ≤ (⟨601000⟩ : LocalTime) - (⟨1000⟩ : LocalTime) ∧
      Io.disconnect a (.peerTimeout "ping") ∈ pushed t₂.manager (t₂.manager.timerExpired ⟨601000⟩) := by
  intro a t₁ ticked t₂
  have reach : Reachable t₁ := .step (.new _ _) (.receivedEvent _ _)
  have found : t₁.manager.peers.lookup a = some ⟨a, .awaitingPong 1 ⟨0⟩, []⟩ := by decide
  have clock : ∀ o ∈ t₁.history, o.time ≤ ⟨1000⟩ := by decide
  have due : ∀ since, State.awaitingPong 1 ⟨0⟩ = .idle since → pingInterval ≤ (⟨1000⟩ : LocalTime) - since :=
    fun _ same => by cases same
  have quiet : pushed ticked.manager t₂.manager = [] := by decide
  have rejected : ticked.manager.pongAccepted ⟨2000⟩ (.messageReceived a (.pong 7)) = false := by decide
  have stale : t₂.history = [.delivered ⟨2000⟩ (.messageReceived a (.pong 7)) false] ++ ticked.history := by
    show record _ (.delivered _ _ (ticked.manager.pongAccepted _ _)) (pushed ticked.manager t₂.manager) _ = _
    rw [quiet, rejected]
    rfl
  have silent : Relation.ReflTransGen (SilentStep a) ticked t₂ :=
    .single ⟨.receivedEvent _ _, _, stale, by simp [Obs.Silent, Obs.acceptedFrom, Obs.negotiates, Obs.disconnects]⟩
  have late : t₁.manager.pingTimeout ≤ (⟨601000⟩ : LocalTime) - (⟨1000⟩ : LocalTime) := by decide
  exact ⟨reach, found, clock, due, silent, late, silent_peer_detected_by_ticks reach found clock due
    t₁.manager.peers (.refl _) silent late t₂.manager.peers (.refl _)⟩

end NakamotoP2p.Fsm.PingMgr
