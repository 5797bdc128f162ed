import NakamotoP2p.Fsm.PingMgr.Chronicle

namespace NakamotoP2p.Fsm.PingMgr

variable {m : PingManager} {h : List Obs} {p : PeerId} {now : LocalTime}

/-- On a tracked peer, `timer_expired` disconnects exactly when the newest ping of the session
has gone unanswered for the timeout. -/
theorem Tracked.disconnect_iff (tracked : Tracked m h p) :
    Io.disconnect p (.peerTimeout "ping") ∈ pushed m (m.timerExpired now) ↔
      connected p h = true ∧ ∃ sent nonce, lastPing p (lifetime p h) = some (sent, nonce) ∧
        m.pingTimeout ≤ now - sent ∧ ∀ o ∈ sinceLastPing p h, o.pongFrom p ≠ some nonce := by
  rw [(m.timerExpired_run now).disconnects m.peers.table.nodupKeys p]
  constructor
  · rintro ⟨nonce, since, _, found, overdue⟩
    obtain ⟨last, unechoed, -⟩ := tracked.awaiting _ nonce since found rfl
    exact ⟨tracked.keyed.symm.trans (congrArg Option.isSome (found : m.peers.lookup p = _)),
      since, nonce, last, overdue, unechoed⟩
  · rintro ⟨live, sent, nonce, last, overdue, unechoed⟩
    obtain ⟨⟨address, state, latencies⟩, found⟩ := Option.isSome_iff_exists.mp (tracked.keyed.trans live)
    obtain rfl : address = p := m.peers.addressed p _ found
    cases state with
    | awaitingPong awaited since =>
      obtain ⟨last', -, -⟩ := tracked.awaiting _ awaited since found rfl
      obtain ⟨rfl, rfl⟩ := Prod.mk.inj (Option.some.inj (last'.symm.trans last))
      exact ⟨awaited, since, latencies, found, overdue⟩
    | idle since =>
      obtain ⟨_, _, last', newest⟩ := tracked.idle _ since found rfl
      obtain ⟨o, member, accepted⟩ := List.exists_of_findSome?_eq_some newest
      obtain ⟨-, rfl⟩ := Prod.mk.inj (Option.some.inj (last'.symm.trans last))
      exact absurd (Obs.pongFrom_of_acceptedFrom accepted) (unechoed o member)

/-- A tick, in any table order, disconnects `p` exactly when `p` is in session and the newest
ping of the session has gone unanswered for the timeout. -/
theorem disconnect_only_after_ping_timeout {t : Traced} (reach : Reachable t) (now : LocalTime)
    (peers : Peers) (relaid : peers.table.entries.Perm t.manager.peers.table.entries) (p : PeerId) :
    let before := { t.manager with peers }
    Io.disconnect p (.peerTimeout "ping") ∈ pushed before (before.timerExpired now) ↔
      connected p t.history = true ∧ ∃ sent nonce, lastPing p (lifetime p t.history) = some (sent, nonce) ∧
        lastPing p t.history = some (sent, nonce) ∧ t.manager.pingTimeout ≤ now - sent ∧
        ∀ o ∈ sinceLastPing p t.history, o.pongFrom p ≠ some nonce := by
  intro before
  rw [((reach.tracked p).of_lookup before (Peers.lookup_perm relaid p)).disconnect_iff]
  constructor
  · rintro ⟨live, sent, nonce, last, overdue, unechoed⟩
    exact ⟨live, sent, nonce, last, lastPing_of_lifetime last, overdue, unechoed⟩
  · rintro ⟨live, sent, nonce, last, -, overdue, unechoed⟩
    exact ⟨live, sent, nonce, last, overdue, unechoed⟩

/-- A peer negotiated at time zero that never answers is disconnected by the tick at the
timeout, as the characterisation predicts. -/
theorem silent_peer_disconnected_at_timeout :
    let a : PeerId := .v4 0x7f000001 8333
    let t := Traced.receivedEvent ⟨.new (.fromSecs 600) ⟨fun n => n.toUInt64⟩, [], []⟩ ⟨0⟩ (.peerNegotiated a ⟨0⟩ 0)
    Reachable t ∧ t.manager.peers.table.entries.Perm t.manager.peers.table.entries ∧
      Io.disconnect a (.peerTimeout "ping") ∈ pushed t.manager (t.manager.timerExpired ⟨600000⟩) := by
  intro a t
  have reach : Reachable t := .step (.new _ _) (.receivedEvent _ _)
  exact ⟨reach, .refl _, (disconnect_only_after_ping_timeout reach ⟨600000⟩ t.manager.peers (.refl _) a).mpr
    ⟨rfl, ⟨0⟩, 1, rfl, rfl, by decide, by decide⟩⟩

/-- Between two consecutive pings to `p` within one session, the `pong` to the first was
accepted, and the second came at least the ping interval after the first. -/
theorem consecutive_pings_spaced {t : Traced} (reach : Reachable t) (ordered : Chronological t.history)
    {p : PeerId} {newer mid older : List Obs} {t₁ t₂ : LocalTime} {n₁ n₂ : UInt64}
    (split : t.history = newer ++ .enqueued t₂ (.send p (.ping n₂)) ::
      (mid ++ .enqueued t₁ (.send p (.ping n₁)) :: older))
    (between : ∀ o ∈ mid, o.pingTo p = none ∧ o.negotiates p = false) :
    (∃ answered, .delivered answered (.messageReceived p (.pong n₁)) true ∈ mid) ∧
      pingInterval ≤ t₂ - t₁ := by
  have silent : ∀ o ∈ mid, o.pingTo p = none := fun o member => (between o member).1
  have first : (Obs.enqueued t₁ (.send p (.ping n₁))).pingTo p = some (t₁, n₁) := by simp [Obs.pingTo]
  rcases throughout_iff.mp reach.chronicle.caused newer _ _ split p t₂ n₂ (by simp [Obs.pingTo]) with
    ⟨services, height, rest, head⟩ | ⟨answered, previous, ⟨o, member, accepted⟩, last, elapsed⟩
  · cases mid with
    | nil => cases head
    | cons o mid =>
      obtain ⟨rfl, -⟩ := List.cons.inj head
      simp [Obs.negotiates] at between
  · rw [sinceLastPing_append_silent _ silent] at member
    simp only [sinceLastPing, List.takeWhile_cons, first, Option.isNone_some] at member
    rw [lastPing_append_silent _ silent] at last
    obtain rfl : n₁ = previous := by simpa [lastPing, first] using last
    obtain rfl := Obs.eq_of_acceptedFrom accepted
    have order : t₁ ≤ answered := by
      rw [split] at ordered
      exact List.pairwise_append.mp (List.pairwise_cons.mp (List.pairwise_append.mp ordered).2.1).2
        |>.2.2 _ (by simpa using member) _ (List.mem_cons_self _ _)
    refine ⟨⟨answered, by simpa using member⟩, ?_⟩
    simp only [LocalDuration.le_iff, LocalTime.le_iff, LocalTime.sub_millis] at elapsed order ⊢
    omega

/-- A peer answers its first ping after 50 ms; the tick two minutes later pings it again. -/
theorem answered_peer_pinged_after_interval :
    let a : PeerId := .v4 0x7f000001 8333
    let t := ((Traced.receivedEvent ⟨.new (.fromSecs 600) ⟨fun n => n.toUInt64⟩, [], []⟩ ⟨0⟩
      (.peerNegotiated a ⟨0⟩ 0)).receivedEvent ⟨50⟩ (.messageReceived a (.pong 1))).timerExpired ⟨120050⟩
    let mid := [Obs.ticked ⟨120050⟩, .delivered ⟨50⟩ (.messageReceived a (.pong 1)) true]
    Reachable t ∧ Chronological t.history ∧
      t.history = [.enqueued ⟨120050⟩ (.setTimer pingInterval), .enqueued ⟨120050⟩ (.setTimer (.fromSecs 600))] ++
        .enqueued ⟨120050⟩ (.send a (.ping 2)) ::
          (mid ++ .enqueued ⟨0⟩ (.send a (.ping 1)) :: [.delivered ⟨0⟩ (.peerNegotiated a ⟨0⟩ 0) false]) ∧
      (∀ o ∈ mid, o.pingTo a = none ∧ o.negotiates a = false) ∧
      (∃ answered, .delivered answered (.messageReceived a (.pong 1)) true ∈ mid) ∧
        pingInterval ≤ (⟨120050⟩ : LocalTime) - (⟨0⟩ : LocalTime) := by
  intro a t mid
  let answered := Traced.receivedEvent (Traced.receivedEvent ⟨.new (.fromSecs 600) ⟨fun n => n.toUInt64⟩, [], []⟩ ⟨0⟩
    (.peerNegotiated a ⟨0⟩ 0)) ⟨50⟩ (.messageReceived a (.pong 1))
  have reach : Reachable t := .step (t := answered) (.step (.step (.new _ _) (.receivedEvent _ _)) (.receivedEvent _ _))
    (.timerExpired ⟨120050⟩ answered.manager.peers (.refl _))
  have ordered : Chronological t.history := by decide
  have between : ∀ o ∈ mid, o.pingTo a = none ∧ o.negotiates a = false := by decide
  refine ⟨reach, ordered, ?split, between, consecutive_pings_spaced reach ordered ?split between⟩
  rfl

end NakamotoP2p.Fsm.PingMgr
