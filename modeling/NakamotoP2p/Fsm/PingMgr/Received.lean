import NakamotoP2p.Fsm.PingMgr

namespace NakamotoP2p.Fsm

/-- The peer an event is about, for the events the ping manager acts on. -/
def Event.peer? : Event → Option PeerId
  | .peerNegotiated addr .. => some addr
  | .peerDisconnected addr .. => some addr
  | .messageReceived sender _ => some sender
  | _ => none

end NakamotoP2p.Fsm

namespace NakamotoP2p.Fsm.PingMgr

namespace PingManager

variable (m : PingManager) (now : LocalTime)

@[simp] theorem peerNegotiated_peers (addr : PeerId) :
    (m.peerNegotiated now addr).peers =
      m.peers.insert addr ⟨addr, .awaitingPong m.rng.u64.1 now, []⟩ rfl := rfl

@[simp] theorem peerNegotiated_rng (addr : PeerId) : (m.peerNegotiated now addr).rng = m.rng.u64.2 :=
  rfl

@[simp] theorem peerNegotiated_outbox (addr : PeerId) :
    (m.peerNegotiated now addr).outbox = m.outbox.ping addr m.rng.u64.1 := rfl

@[simp] theorem peerNegotiated_pingTimeout (addr : PeerId) :
    (m.peerNegotiated now addr).pingTimeout = m.pingTimeout := rfl

theorem receivedPing_eq (addr : PeerId) (nonce : UInt64) :
    (m.receivedPing addr nonce).2 =
      { m with outbox := ⟨m.outbox.queue ++
        if m.peers.containsKey addr then [.send addr (.pong nonce)] else []⟩ } := by
  unfold receivedPing
  split <;> simp_all [Outbox.pong, Outbox.push]

/-- The matching `pong` to an awaited ping: the record turns idle with one more sample. -/
theorem receivedPong_of_awaiting {addr : PeerId} {nonce : UInt64} {peer : Peer} {since : LocalTime}
    (found : m.peers.lookup addr = some peer) (awaiting : peer.state = .awaitingPong nonce since) :
    m.receivedPong now addr nonce = (true, { m with
      peers := m.peers.update addr { peer.recordLatency (now - since) with state := .idle now }
        (m.peers.addressed addr peer found) }) := by
  unfold receivedPong
  split
  · next stored lookedUp =>
    obtain rfl : stored = peer := Option.some.inj (lookedUp.symm.trans found)
    simp [awaiting]
  · next lookedUp => simp [lookedUp] at found

/-- Any other `pong` leaves the whole manager as it was. -/
theorem receivedPong_of_not_awaiting {addr : PeerId} {nonce : UInt64}
    (unmatched : ∀ peer since, m.peers.lookup addr = some peer → peer.state ≠ .awaitingPong nonce since) :
    m.receivedPong now addr nonce = (false, m) := by
  unfold receivedPong
  split
  · next peer found =>
    split
    · next lastNonce since awaiting =>
      have different : nonce ≠ lastNonce := fun same => unmatched peer since found (same ▸ awaiting)
      simp [different]
    · rfl
  · rfl

/-- `received_pong` changes the peer table and nothing else. -/
theorem receivedPong_frame (addr : PeerId) (nonce : UInt64) :
    (m.receivedPong now addr nonce).2 = { m with peers := (m.receivedPong now addr nonce).2.peers } := by
  unfold receivedPong
  split <;> (try split) <;> (try split) <;> rfl

theorem receivedPong_rng (addr : PeerId) (nonce : UInt64) :
    (m.receivedPong now addr nonce).2.rng = m.rng := by
  rw [m.receivedPong_frame now addr nonce]

theorem receivedPong_outbox (addr : PeerId) (nonce : UInt64) :
    (m.receivedPong now addr nonce).2.outbox = m.outbox := by
  rw [m.receivedPong_frame now addr nonce]

/-- `received_pong` accepts only the nonce its record awaits. -/
theorem awaiting_of_receivedPong {addr : PeerId} {nonce : UInt64}
    (accepted : (m.receivedPong now addr nonce).1 = true) :
    ∃ peer since, m.peers.lookup addr = some peer ∧ peer.state = .awaitingPong nonce since := by
  by_contra unmatched
  push_neg at unmatched
  rw [m.receivedPong_of_not_awaiting now unmatched] at accepted
  cases accepted

/-- An event leaves the record of every other peer as it was. -/
theorem receivedEvent_lookup_other (event : Event) {q : PeerId} (other : event.peer? ≠ some q) :
    (m.receivedEvent now event).peers.lookup q = m.peers.lookup q := by
  cases event with
  | peerNegotiated addr =>
    have different : q ≠ addr := fun same => other (by rw [same]; rfl)
    simp [receivedEvent, different]
  | peerDisconnected addr =>
    have different : q ≠ addr := fun same => other (by rw [same]; rfl)
    simp [receivedEvent, different]
  | messageReceived sender message =>
    have different : q ≠ sender := fun same => other (by rw [same]; rfl)
    cases message with
    | ping nonce => simp [receivedEvent, receivedPing_eq]
    | pong nonce =>
      by_cases awaited : ∃ peer since, m.peers.lookup sender = some peer ∧
          peer.state = .awaitingPong nonce since
      · obtain ⟨peer, since, found, awaiting⟩ := awaited
        simp [receivedEvent, m.receivedPong_of_awaiting now found awaiting, different]
      · simp [receivedEvent, m.receivedPong_of_not_awaiting now fun peer since found awaiting =>
          awaited ⟨peer, since, found, awaiting⟩]
    | other command => rfl
  | _ => rfl

/-- An event only appends to the outbox, and only effects addressed to its own peer. -/
theorem receivedEvent_outbox (event : Event) :
    ∃ ios, (m.receivedEvent now event).outbox.queue = m.outbox.queue ++ ios ∧
      ∀ io ∈ ios, ∃ q, io.peer? = some q ∧ event.peer? = some q := by
  cases event with
  | peerNegotiated addr => exact ⟨_, rfl, by simp [Io.peer?, Event.peer?]⟩
  | messageReceived sender message =>
    cases message with
    | ping nonce =>
      refine ⟨if m.peers.containsKey sender then [.send sender (.pong nonce)] else [],
        by simp [receivedEvent, receivedPing_eq], fun io member => ?_⟩
      split at member <;> simp_all [Io.peer?, Event.peer?]
    | pong nonce =>
      by_cases awaited : ∃ peer since, m.peers.lookup sender = some peer ∧
          peer.state = .awaitingPong nonce since
      · obtain ⟨peer, since, found, awaiting⟩ := awaited
        exact ⟨[], by simp [receivedEvent, m.receivedPong_of_awaiting now found awaiting], by simp⟩
      · exact ⟨[], by simp [receivedEvent, m.receivedPong_of_not_awaiting now fun peer since found
          awaiting => awaited ⟨peer, since, found, awaiting⟩], by simp⟩
    | other command => exact ⟨[], by simp [receivedEvent], by simp⟩
  | _ => exact ⟨[], by simp [receivedEvent], by simp⟩

end PingManager

open PingManager

/-- Pong handling is atomic: the `pong` echoing an awaited nonce turns that record idle with
the new sample in front and changes nothing else, and every other `pong` changes nothing. -/
theorem receivedEvent_pong (m : PingManager) (now : LocalTime) (p : PeerId) (nonce : UInt64) :
    let after := m.receivedEvent now (.messageReceived p (.pong nonce))
    (∀ peer since (found : m.peers.lookup p = some peer), peer.state = .awaitingPong nonce since →
      let idle := { peer with state := .idle now, latencies := ((now - since) :: peer.latencies).take 64 }
      after = { m with peers := m.peers.update p idle (m.peers.addressed p peer found) } ∧
        after.peers.lookup p = some idle ∧ (∀ q, q ≠ p → after.peers.lookup q = m.peers.lookup q) ∧
        after.peers.table.keys = m.peers.table.keys ∧ after.rng = m.rng ∧ after.outbox = m.outbox) ∧
    ((∀ peer since, m.peers.lookup p = some peer → peer.state ≠ .awaitingPong nonce since) →
      after = m) := by
  refine ⟨fun peer since found awaiting => ?_, fun unmatched => ?_⟩
  · have accept := m.receivedPong_of_awaiting now found awaiting
    refine ⟨?_, ?_, fun q other => ?_, ?_, ?_, ?_⟩
    · simp only [receivedEvent, accept]
      rfl
    · simp [receivedEvent, accept, found, Peer.recordLatency, maxRecordedLatencies]
    · simp [receivedEvent, accept, other]
    all_goals simp [receivedEvent, accept, Peers.keys_update]
  · simp [receivedEvent, m.receivedPong_of_not_awaiting now unmatched]

/-- An event changes at most its own peer's record and enqueues only effects addressed to that
peer; per kind of event, exactly what the manager does. -/
theorem receivedEvent_touches_own_peer (m : PingManager) (now : LocalTime) (event : Event) :
    let after := m.receivedEvent now event
    (∀ q, event.peer? ≠ some q → after.peers.lookup q = m.peers.lookup q) ∧
    (∃ ios, after.outbox.queue = m.outbox.queue ++ ios ∧
      ∀ io ∈ ios, ∃ q, io.peer? = some q ∧ event.peer? = some q) ∧
    match event with
    | .peerNegotiated addr .. =>
      after.rng = m.rng.u64.2 ∧
        after.outbox.queue = m.outbox.queue ++ [.send addr (.ping m.rng.u64.1)] ∧
        after.peers.lookup addr = some ⟨addr, .awaitingPong m.rng.u64.1 now, []⟩
    | .peerDisconnected addr .. =>
      after.peers.lookup addr = none ∧ after.rng = m.rng ∧ after.outbox = m.outbox ∧
        (m.peers.lookup addr = none → after = m)
    | .messageReceived sender (.ping nonce) =>
      after.peers = m.peers ∧ after.rng = m.rng ∧
        after.outbox.queue = m.outbox.queue ++
          if m.peers.containsKey sender then [.send sender (.pong nonce)] else []
    | .messageReceived sender (.pong nonce) =>
      after = { m with peers := after.peers } ∧
        ((∀ peer since, m.peers.lookup sender = some peer → peer.state ≠ .awaitingPong nonce since) →
          after = m)
    | _ => after = m := by
  refine ⟨fun q other => receivedEvent_lookup_other m now event other, receivedEvent_outbox m now event, ?_⟩
  cases event with
  | peerNegotiated addr => exact ⟨rfl, rfl, by simp [receivedEvent]⟩
  | peerDisconnected addr =>
    exact ⟨by simp [receivedEvent], rfl, rfl, fun absent => by
      simp [receivedEvent, Peers.remove_of_absent _ absent]⟩
  | messageReceived sender message =>
    cases message with
    | ping nonce => simp [receivedEvent, receivedPing_eq]
    | pong nonce =>
      exact ⟨receivedPong_frame m now sender nonce,
        fun unmatched => by simp [receivedEvent, m.receivedPong_of_not_awaiting now unmatched]⟩
    | other command => rfl
  | _ => rfl

/-- Not every message but a `ping` leaves the peer table as it was: an accepted `pong` turns
its sender's record idle. -/
theorem accepted_pong_changes_peer_table :
    let a : PeerId := .v4 0x7f000001 8333
    let m := (PingManager.new (.fromSecs 600) ⟨fun n => n.toUInt64⟩).receivedEvent ⟨0⟩ (.peerNegotiated a ⟨0⟩ 0)
    (m.receivedEvent ⟨50⟩ (.messageReceived a (.pong 1))).peers.lookup a ≠ m.peers.lookup a := by
  decide

end NakamotoP2p.Fsm.PingMgr
