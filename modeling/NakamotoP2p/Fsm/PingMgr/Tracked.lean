import NakamotoP2p.Fsm.PingMgr.Run

namespace NakamotoP2p.Fsm.PingMgr

/-- What the history says about `p` agrees with `p`'s record in the table. -/
structure Tracked (m : PingManager) (h : List Obs) (p : PeerId) : Prop where
  /-- `p` has a record exactly while it is in session. -/
  keyed : (m.peers.lookup p).isSome = connected p h
  /-- An awaited nonce is the newest ping's of the session, sent at `since`; no `pong` has
  echoed it since, and none was accepted since. -/
  awaiting : ∀ peer nonce since, m.peers.lookup p = some peer → peer.state = .awaitingPong nonce since →
    lastPing p (lifetime p h) = some (since, nonce) ∧
      (∀ o ∈ sinceLastPing p h, o.pongFrom p ≠ some nonce) ∧ (turns p h).head? = some (.ping nonce)
  /-- An idle record was entered at `since`, when the newest accepted `pong` arrived; it
  echoed the newest ping of the session. -/
  idle : ∀ peer since, m.peers.lookup p = some peer → peer.state = .idle since →
    ∃ sent nonce, lastPing p (lifetime p h) = some (sent, nonce) ∧
      (sinceLastPing p h).findSome? (Obs.acceptedFrom p) = some (since, nonce)
  /-- The samples are the session's newest 64 round trips; an idle record holds at least one. -/
  sampled : ∀ peer, m.peers.lookup p = some peer →
    peer.latencies = (samples p (lifetime p h)).take 64 ∧
      ∀ since, peer.state = .idle since → peer.latencies ≠ []
  pairs : paired (turns p h) = true

theorem Tracked.new (pingTimeout : LocalDuration) (rng : Rng) (p : PeerId) :
    Tracked (.new pingTimeout rng) [] p :=
  ⟨rfl, by simp [PingManager.new], by simp [PingManager.new], by simp [PingManager.new], rfl⟩

variable {m m' : PingManager} {h xs : List Obs} {p : PeerId}

/-- A call that leaves `p`'s record as it was and records nothing that moves `p`'s session,
nor a `pong` echoing the nonce `p` awaits. -/
theorem Tracked.frame (tracked : Tracked m h p) (same : m'.peers.lookup p = m.peers.lookup p)
    (inert : ∀ o ∈ xs, o.Inert p)
    (unechoed : ∀ peer nonce since, m.peers.lookup p = some peer →
      peer.state = .awaitingPong nonce since → ∀ o ∈ xs, o.pongFrom p ≠ some nonce) :
    Tracked m' (xs ++ h) p := by
  have lifetime_eq := lifetime_append_inert h inert
  have since_eq := sinceLastPing_append_inert h inert
  refine ⟨?_, fun peer nonce since found state => ?_, fun peer since found state => ?_,
    fun peer found => ?_, ?_⟩
  · rw [same, connected_append_inert h inert, tracked.keyed]
  · rw [same] at found
    obtain ⟨last, unanswered, turn⟩ := tracked.awaiting peer nonce since found state
    refine ⟨by rw [lifetime_eq, lastPing_append_inert _ inert, last], ?_, by
      rw [turns_append_inert _ inert, turn]⟩
    rw [since_eq]
    intro o member
    rcases List.mem_append.mp member with fresh | old
    · exact unechoed peer nonce since found state o fresh
    · exact unanswered o old
  · rw [same] at found
    obtain ⟨sent, nonce, last, newest⟩ := tracked.idle peer since found state
    refine ⟨sent, nonce, by rw [lifetime_eq, lastPing_append_inert _ inert, last], ?_⟩
    rw [since_eq, List.findSome?_append, newest,
      List.findSome?_eq_none_iff.mpr fun o member => (inert o member).2.2.2]
    rfl
  · rw [same] at found
    rw [lifetime_eq, samples, answers_append_inert _ inert, ← samples]
    exact tracked.sampled peer found
  · rw [turns_append_inert _ inert]; exact tracked.pairs

/-- `PeerNegotiated` for `p`: a fresh record awaiting the ping the call enqueued. -/
theorem Tracked.negotiated (tracked : Tracked m h p) (now : LocalTime) (services : ServiceFlags)
    (height : Height) :
    Tracked (m.peerNegotiated now p)
      (.enqueued now (.send p (.ping m.rng.u64.1)) :: .delivered now (.peerNegotiated p services height) false :: h)
      p := by
  have turned : turns p (.enqueued now (.send p (.ping m.rng.u64.1)) ::
      .delivered now (.peerNegotiated p services height) false :: h) = .ping m.rng.u64.1 :: turns p h := by
    simp [turns, Obs.turn, Obs.pingTo, Obs.acceptedFrom]
  refine ⟨by simp [connected, Obs.negotiates, Obs.disconnects], fun peer nonce since found state => ?_,
    fun peer since found state => ?_, fun peer found => ?_, by simpa [turned] using tracked.pairs⟩
  · simp only [PingManager.peerNegotiated_peers, Peers.lookup_insert, if_true,
      Option.some.injEq] at found
    subst found
    simp only [State.awaitingPong.injEq] at state
    obtain ⟨rfl, rfl⟩ := state
    simp [turned, lifetime, lastPing, sinceLastPing, Obs.negotiates, Obs.pingTo]
  · simp only [PingManager.peerNegotiated_peers, Peers.lookup_insert, if_true,
      Option.some.injEq] at found
    subst found; cases state
  · simp only [PingManager.peerNegotiated_peers, Peers.lookup_insert, if_true,
      Option.some.injEq] at found
    subst found
    simp [lifetime, samples, answers, Obs.negotiates, Obs.acceptedFrom]

/-- `PeerDisconnected` for `p`: no record, and the session closed. -/
theorem Tracked.disconnected (tracked : Tracked m h p) (now : LocalTime) (reason : String) :
    Tracked { m with peers := m.peers.remove p } (.delivered now (.peerDisconnected p reason) false :: h) p :=
  ⟨by simp [connected, Obs.negotiates, Obs.disconnects], by simp, by simp, by simp,
    by simpa [turns, Obs.turn, Obs.pingTo, Obs.acceptedFrom] using tracked.pairs⟩

/-- The `pong` echoing the awaited nonce: the record turns idle with the round trip in front. -/
theorem Tracked.accepted (tracked : Tracked m h p) {peer : Peer} {nonce : UInt64} {since : LocalTime}
    (found : m.peers.lookup p = some peer) (awaiting : peer.state = .awaitingPong nonce since)
    (now : LocalTime) :
    Tracked { m with
        peers := m.peers.update p { peer.recordLatency (now - since) with state := .idle now }
          (m.peers.addressed p peer found) }
      (.delivered now (.messageReceived p (.pong nonce)) true :: h) p := by
  obtain ⟨last, _, turn⟩ := tracked.awaiting peer nonce since found awaiting
  have pong : (Obs.delivered now (.messageReceived p (.pong nonce)) true).acceptedFrom p =
      some (now, nonce) := by simp [Obs.acceptedFrom]
  have quiet : (Obs.delivered now (.messageReceived p (.pong nonce)) true).pingTo p = none := rfl
  have lifetime_eq : lifetime p (.delivered now (.messageReceived p (.pong nonce)) true :: h) =
      .delivered now (.messageReceived p (.pong nonce)) true :: lifetime p h := by
    simp [lifetime, Obs.negotiates]
  have since_eq : sinceLastPing p (.delivered now (.messageReceived p (.pong nonce)) true :: h) =
      .delivered now (.messageReceived p (.pong nonce)) true :: sinceLastPing p h := by
    simp [sinceLastPing, quiet]
  have lastPing_eq : lastPing p (.delivered now (.messageReceived p (.pong nonce)) true :: lifetime p h) =
      some (since, nonce) := by simpa [lastPing, quiet] using last
  have keyed := tracked.keyed
  rw [found] at keyed
  refine ⟨?_, fun peer' nonce' since' found' state => ?_, fun peer' since' found' state => ?_,
    fun peer' found' => ?_, ?_⟩
  · simpa [found, connected, Obs.negotiates, Obs.disconnects] using keyed
  · simp [found, Peer.recordLatency] at found'; subst found'; cases state
  · simp [found, Peer.recordLatency] at found'
    subst found'
    simp only [State.idle.injEq] at state
    subst state
    refine ⟨since, nonce, by rw [lifetime_eq, lastPing_eq], ?_⟩
    rw [since_eq, List.findSome?_cons, pong]
  · simp [found, Peer.recordLatency] at found'
    subst found'
    have answered : samples p (.delivered now (.messageReceived p (.pong nonce)) true :: lifetime p h) =
        (now - since) :: samples p (lifetime p h) := by
      simp only [samples, answers, pong]
      rw [show lastPing p (lifetime p h) = some (since, nonce) from last]
      rfl
    simp [lifetime_eq, answered, Peer.recordLatency, maxRecordedLatencies,
      (tracked.sampled peer found).1, List.take_take]
  · obtain ⟨rest, split⟩ := List.head?_eq_some_iff.mp turn
    have ok := tracked.pairs
    rw [split] at ok
    have turned : turns p (.delivered now (.messageReceived p (.pong nonce)) true :: h) =
        .accept nonce :: turns p h := by simp [turns, Obs.turn, quiet, pong]
    rw [turned, split]
    simpa only [PingMgr.paired, beq_self_eq_true, Bool.true_and] using ok

/-- A tick pings an idle `p`: the record awaits the new nonce, and everything else the tick
records moves nothing in `p`'s session. -/
theorem Tracked.pingedOnTick (tracked : Tracked m h p) {ys zs : List Obs} {since now : LocalTime}
    {nonce : UInt64} {latencies : List LocalDuration}
    (found : m.peers.lookup p = some ⟨p, .idle since, latencies⟩)
    (renewed : m'.peers.lookup p = some ⟨p, .awaitingPong nonce now, latencies⟩)
    (newer : ∀ o ∈ ys, o.Inert p ∧ o.pongFrom p = none) (older : ∀ o ∈ zs, o.Inert p) :
    Tracked m' (ys ++ .enqueued now (.send p (.ping nonce)) :: (zs ++ h)) p := by
  have inertNewer : ∀ o ∈ ys, o.Inert p := fun o member => (newer o member).1
  have ping : (Obs.enqueued now (.send p (.ping nonce))).pingTo p = some (now, nonce) := by
    simp [Obs.pingTo]
  have lifetime_eq : lifetime p (ys ++ .enqueued now (.send p (.ping nonce)) :: (zs ++ h)) =
      ys ++ .enqueued now (.send p (.ping nonce)) :: (zs ++ lifetime p h) := by
    have renegotiates : (Obs.enqueued now (.send p (.ping nonce))).negotiates p = false := rfl
    rw [lifetime_append_inert _ inertNewer, lifetime_cons _ renegotiates,
      lifetime_append_inert _ older]
  have turned : turns p (ys ++ .enqueued now (.send p (.ping nonce)) :: (zs ++ h)) =
      .ping nonce :: turns p h := by
    rw [turns_append_inert _ inertNewer, turns_cons_ping _ ping, turns_append_inert _ older]
  have keyed := tracked.keyed
  rw [found] at keyed
  refine ⟨?_, fun peer nonce' since' found' state => ?_, fun peer since' found' state => ?_,
    fun peer found' => ?_, by simpa [turned] using tracked.pairs⟩
  · rw [renewed, connected_append_inert _ inertNewer]
    simpa [connected, Obs.negotiates, Obs.disconnects, connected_append_inert _ older] using keyed
  · rw [renewed, Option.some.injEq] at found'
    subst found'
    simp only [State.awaitingPong.injEq] at state
    obtain ⟨rfl, rfl⟩ := state
    refine ⟨?_, ?_, by simp [turned]⟩
    · rw [lifetime_eq, lastPing_append_inert _ inertNewer]
      simp [lastPing, ping]
    · rw [sinceLastPing_append_inert _ inertNewer]
      simp only [sinceLastPing, List.takeWhile_cons, ping, Option.isNone_some, Bool.false_eq_true,
        if_false, List.append_nil]
      exact fun o member => by simp [(newer o member).2]
  · rw [renewed, Option.some.injEq] at found'
    subst found'; cases state
  · rw [renewed, Option.some.injEq] at found'
    subst found'
    have same : samples p (lifetime p (ys ++ .enqueued now (.send p (.ping nonce)) :: (zs ++ h))) =
        samples p (lifetime p h) := by
      rw [lifetime_eq, samples, answers_append_inert _ inertNewer, answers_cons_ping _ ping,
        answers_append_inert _ older, samples]
    simpa [same] using (tracked.sampled _ found).1

end NakamotoP2p.Fsm.PingMgr
