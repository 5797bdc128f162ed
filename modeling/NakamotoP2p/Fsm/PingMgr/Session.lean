import NakamotoP2p.Fsm.PingMgr.Chronicle

namespace NakamotoP2p.Fsm.PingMgr

theorem PingManager.messageReceived_keys (m : PingManager) (now : LocalTime) (sender : PeerId)
    (message : NetworkMessage) :
    (m.receivedEvent now (.messageReceived sender message)).peers.table.keys = m.peers.table.keys := by
  cases message with
  | ping nonce => simp [PingManager.receivedEvent, PingManager.receivedPing_eq]
  | pong nonce =>
    by_cases awaited : ∃ peer since, m.peers.lookup sender = some peer ∧
        peer.state = .awaitingPong nonce since
    · obtain ⟨peer, since, found, awaiting⟩ := awaited
      simp [PingManager.receivedEvent, m.receivedPong_of_awaiting now found awaiting, Peers.keys_update]
    · simp [PingManager.receivedEvent, m.receivedPong_of_not_awaiting now fun peer since found awaiting =>
        awaited ⟨peer, since, found, awaiting⟩]
  | other command => rfl

theorem pushed_next (m : PingManager) : pushed m m.next.2 = [] := by
  obtain ⟨peers, pingTimeout, rng, ⟨queue⟩⟩ := m
  cases queue <;> simp [pushed, PingManager.next, Outbox.next]

/-- Every effect an event pushes goes to a peer that has a record once the event is handled. -/
theorem PingManager.receivedEvent_routed (m : PingManager) (now : LocalTime) (event : Event) :
    ∀ io ∈ pushed m (m.receivedEvent now event), ∀ q, io.peer? = some q →
      ((m.receivedEvent now event).peers.lookup q).isSome := by
  rw [m.pushed_receivedEvent]
  cases event with
  | peerNegotiated addr => simp [PingManager.receivedEvent, Io.peer?]
  | messageReceived sender message =>
    cases message with
    | ping nonce =>
      by_cases known : m.peers.containsKey sender
      · simp only [known, if_true, List.mem_singleton, forall_eq, Io.peer?, Option.some.injEq, forall_eq',
          PingManager.receivedEvent, PingManager.receivedPing_eq]
        exact known
      · simp [known]
    | _ => simp
  | _ => simp

/-- Every effect a step pushes goes to a peer that has a record after the step. -/
theorem Step.routed {t t' : Traced} (move : Step t t') :
    ∀ io ∈ pushed t.manager t'.manager, ∀ q, io.peer? = some q → (t'.manager.peers.lookup q).isSome := by
  cases move with
  | receivedEvent now event => exact t.manager.receivedEvent_routed now event
  | timerExpired now peers relaid =>
    let before := { t.manager with peers }
    have run := before.timerExpired_run now
    intro io member q routed
    change io ∈ pushed before (before.timerExpired now) at member
    change ((before.timerExpired now).peers.lookup q).isSome
    have key : q ∈ (PingManager.timerExpired { t.manager with peers } now).peers.table.entries.keys := by
      rw [run.keys]
      exact run.addressed io member q routed
    exact AList.lookup_isSome.mpr (AList.mem_keys.mp key)
  | next => simp [Traced.next, pushed_next]

/-- The table's keys are exactly the peers in session, each record under its own address, and
every effect goes to a peer in session; each negotiation is followed at once by its ping. -/
theorem peer_table_follows_sessions {t : Traced} (reach : Reachable t) :
    (∀ p, (t.manager.peers.lookup p).isSome = connected p t.history) ∧
    (∀ p peer, t.manager.peers.lookup p = some peer → peer.address = p) ∧
    (∀ (m : PingManager) now, (m.timerExpired now).peers.table.keys = m.peers.table.keys) ∧
    (∀ (m : PingManager) now sender message,
      (m.receivedEvent now (.messageReceived sender message)).peers.table.keys = m.peers.table.keys) ∧
    (∀ t', Step t t' → ∀ io ∈ pushed t.manager t'.manager, ∀ q, io.peer? = some q →
      connected q t'.history = true) ∧
    (∀ p services height newer now accepted older,
      t.history = newer ++ .delivered now (.peerNegotiated p services height) accepted :: older →
        ∃ nonce, newer.getLast? = some (.enqueued now (.send p (.ping nonce)))) := by
  refine ⟨fun p => (reach.tracked p).keyed, t.manager.peers.addressed, PingManager.timerExpired_keys,
    PingManager.messageReceived_keys, fun t' move io member q routed => ?_,
    fun p services height newer now accepted older split => ?_⟩
  · rw [← ((reach.step move).tracked q).keyed]
    exact move.routed io member q routed
  · have chron := reach.chronicle
    rcases List.eq_nil_or_concat newer with rfl | ⟨newer, o, rfl⟩
    · exact absurd split (chron.settled now p services height accepted older)
    · rw [List.concat_eq_append, List.append_assoc, List.singleton_append] at split
      obtain ⟨nonce, rfl⟩ := throughout_iff.mp chron.follows newer o _ split now p services height accepted older rfl
      exact ⟨nonce, by simp⟩

/-- Right after a negotiation, the table holds exactly the negotiated peer. -/
theorem negotiated_peer_in_table :
    let t := Traced.receivedEvent ⟨.new (.fromSecs 600) ⟨fun n => n.toUInt64⟩, [], []⟩ ⟨0⟩
      (.peerNegotiated (.v4 0x7f000001 8333) ⟨0⟩ 0)
    Reachable t ∧ ∀ p, (t.manager.peers.lookup p).isSome = connected p t.history := by
  intro t
  have reach : Reachable t := .step (.new _ _) (.receivedEvent _ _)
  exact ⟨reach, (peer_table_follows_sessions reach).1⟩

end NakamotoP2p.Fsm.PingMgr
