import NakamotoP2p.Fsm.PingMgr.Chronicle
import NakamotoP2p.Fsm.PingMgr.Samples

namespace NakamotoP2p.Fsm.PingMgr

variable {t : Traced}

/-- Each answer of a session is the first `pong` echoing the newest ping before it. -/
theorem Reachable.answer (reach : Reachable t) {p : PeerId} {a : Answer}
    (member : a ∈ answers p (lifetime p t.history)) :
    ∃ newer older, lifetime p t.history =
        newer ++ .delivered a.answered (.messageReceived p (.pong a.nonce)) true :: older ∧
      lastPing p older = some (a.sent, a.nonce) ∧ ∀ o ∈ sinceLastPing p older, o.pongFrom p ≠ some a.nonce := by
  obtain ⟨newer, older, nonce, split, last⟩ := mem_answers member
  obtain ⟨⟨_, echoed⟩, unechoed⟩ := throughout_iff.mp reach.chronicle.echoes _ _ _
    (split_of_lifetime split) p a.answered a.nonce (by simp [Obs.acceptedFrom])
  have echoed := lastPing_of_lifetime echoed
  rw [lastPing_append_of_some last] at echoed
  rw [sinceLastPing_append_of_some last] at unechoed
  obtain ⟨-, rfl⟩ := Prod.mk.inj (Option.some.inj echoed)
  exact ⟨newer, older, split, last, unechoed⟩

/-- Stale, repeated and forged pongs are never counted: given distinct nonces, each sample is
the round trip of a distinct ping of the session, to the first `pong` echoing it. -/
theorem stale_pongs_never_counted (reach : Reachable t) (fresh : (pingNonces t.history).Nodup) :
    (∀ p, ((t.history.filterMap (Obs.acceptedFrom p)).map Prod.snd).Nodup) ∧
    (∀ p newer o older answered nonce, t.history = newer ++ o :: older →
      o.acceptedFrom p = some (answered, nonce) →
        (∃ sent, lastPing p (lifetime p older) = some (sent, nonce)) ∧
          ∀ o' ∈ sinceLastPing p older, o'.pongFrom p ≠ some nonce) ∧
    (∀ p peer, t.manager.peers.lookup p = some peer →
      peer.latencies =
          ((answers p (lifetime p t.history)).map fun a => a.answered - a.sent).take maxRecordedLatencies ∧
        ((answers p (lifetime p t.history)).map Answer.nonce).Nodup ∧
        ∀ a ∈ answers p (lifetime p t.history), ∃ newer older, lifetime p t.history =
            newer ++ .delivered a.answered (.messageReceived p (.pong a.nonce)) true :: older ∧
          lastPing p older = some (a.sent, a.nonce) ∧
          ∀ o ∈ sinceLastPing p older, o.pongFrom p ≠ some a.nonce) := by
  have once (p : PeerId) : ((t.history.filterMap (Obs.acceptedFrom p)).map Prod.snd).Nodup := by
    have paired := paired_sublist _ (reach.tracked p).pairs
    rw [turns_accepted, turns_pinged] at paired
    exact fresh.sublist (paired.trans (pinged_sublist_pingNonces p t.history))
  refine ⟨once, fun p newer o older answered nonce split accepted =>
    throughout_iff.mp reach.chronicle.echoes newer o older split p answered nonce accepted,
    fun p peer found => ⟨((reach.tracked p).sampled peer found).1, ?_, fun a member => reach.answer member⟩⟩
  have session : List.Sublist ((lifetime p t.history).filterMap (Obs.acceptedFrom p))
      (t.history.filterMap (Obs.acceptedFrom p)) :=
    (List.takeWhile_prefix _).sublist.filterMap _
  exact (once p).sublist ((answers_sublist_accepted p _).trans (session.map _))

/-- A `pong` answering the first ping is counted once. -/
theorem answered_ping_counted_once :
    let a : PeerId := .v4 0x7f000001 8333
    let t := (Traced.receivedEvent ⟨.new (.fromSecs 600) ⟨fun n => n.toUInt64⟩, [], []⟩ ⟨0⟩
      (.peerNegotiated a ⟨0⟩ 0)).receivedEvent ⟨50⟩ (.messageReceived a (.pong 1))
    Reachable t ∧ (pingNonces t.history).Nodup ∧
      ((t.history.filterMap (Obs.acceptedFrom a)).map Prod.snd).Nodup := by
  intro a t
  have reach : Reachable t := .step (.step (.new _ _) (.receivedEvent _ _)) (.receivedEvent _ _)
  have fresh : (pingNonces t.history).Nodup := by decide
  exact ⟨reach, fresh, (stale_pongs_never_counted reach fresh).1 a⟩

/-- With a clock that never goes back, `now - since` is the exact elapsed time, and every sample
the exact delay from its ping's enqueue to its `pong`'s delivery. -/
theorem elapsed_time_exact (reach : Reachable t) (ordered : Chronological t.history) (now : LocalTime)
    (clock : ∀ o ∈ t.history, o.time ≤ now) :
    ∀ p peer, t.manager.peers.lookup p = some peer →
      peer.state.since ≤ now ∧ (now - peer.state.since).millis + peer.state.since.millis = now.millis ∧
      ∀ sample ∈ peer.latencies, ∃ newer older sent answered nonce, lifetime p t.history =
          newer ++ .delivered answered (.messageReceived p (.pong nonce)) true :: older ∧
        lastPing p older = some (sent, nonce) ∧ sample.millis + sent.millis = answered.millis := by
  intro p peer found
  have tracked := reach.tracked p
  have before : peer.state.since ≤ now := by
    obtain ⟨address, state, latencies⟩ := peer
    cases state with
    | awaitingPong nonce since =>
      obtain ⟨last, -, -⟩ := tracked.awaiting _ nonce since found rfl
      exact clock _ (ping_mem_of_lastPing (lastPing_of_lifetime last))
    | idle since =>
      obtain ⟨_, _, -, newest⟩ := tracked.idle _ since found rfl
      obtain ⟨o, member, accepted⟩ := List.exists_of_findSome?_eq_some newest
      have answered := clock o (List.takeWhile_subset _ member)
      rwa [Obs.eq_of_acceptedFrom accepted] at answered
  refine ⟨before, by simp only [LocalTime.le_iff] at before; simp only [LocalTime.sub_millis]; omega,
    fun sample member => ?_⟩
  rw [(tracked.sampled peer found).1] at member
  obtain ⟨a, answer, rfl⟩ := List.mem_map.mp (List.mem_of_mem_take member)
  obtain ⟨newer, older, split, last, -⟩ := reach.answer answer
  refine ⟨newer, older, a.sent, a.answered, a.nonce, split, last, ?_⟩
  rw [split_of_lifetime split] at ordered
  have order : a.sent ≤ a.answered :=
    (List.pairwise_cons.mp (List.pairwise_append.mp ordered).2.1).1 _
      (List.mem_append_left _ (ping_mem_of_lastPing last))
  simp only [LocalTime.le_iff] at order
  simp only [LocalTime.sub_millis]
  omega

/-- After a 50 ms round trip the idle record's timestamp is no later than the next reading. -/
theorem answered_record_since_before_now :
    let t := (Traced.receivedEvent ⟨.new (.fromSecs 600) ⟨fun n => n.toUInt64⟩, [], []⟩ ⟨0⟩
      (.peerNegotiated (.v4 0x7f000001 8333) ⟨0⟩ 0)).receivedEvent ⟨50⟩
        (.messageReceived (.v4 0x7f000001 8333) (.pong 1))
    Reachable t ∧ Chronological t.history ∧ (∀ o ∈ t.history, o.time ≤ ⟨60⟩) ∧
      ∀ p peer, t.manager.peers.lookup p = some peer → peer.state.since ≤ ⟨60⟩ := by
  intro t
  have reach : Reachable t := .step (.step (.new _ _) (.receivedEvent _ _)) (.receivedEvent _ _)
  have ordered : Chronological t.history := by decide
  have clock : ∀ o ∈ t.history, o.time ≤ ⟨60⟩ := by decide
  exact ⟨reach, ordered, clock, fun p peer found => (elapsed_time_exact reach ordered ⟨60⟩ clock p peer found).1⟩

/-- Every record holds at most `MAX_RECORDED_LATENCIES` samples, and at least one once idle, so
`Peer::latency` on an idle record never divides by zero. -/
theorem latency_history_bounded (reach : Reachable t) :
    ∀ p peer, t.manager.peers.lookup p = some peer →
      peer.latencies.length ≤ maxRecordedLatencies ∧
      ∀ since, peer.state = .idle since →
        0 < peer.latencies.length ∧ peer.latencies.length.toUInt32.toNat = peer.latencies.length ∧
        peer.latency = (LocalDuration.sum peer.latencies).map fun sum => ⟨sum.millis / peer.latencies.length⟩ := by
  intro p peer found
  obtain ⟨sampled, nonempty⟩ := (reach.tracked p).sampled peer found
  have bounded : peer.latencies.length ≤ maxRecordedLatencies := sampled ▸ List.length_take_le _ _
  refine ⟨bounded, fun since idle => ?_⟩
  have counted : 0 < peer.latencies.length := List.length_pos.mpr (nonempty since idle)
  have narrow : peer.latencies.length < 2 ^ 32 := bounded.trans_lt (by decide)
  exact ⟨counted, UInt32.toNat_ofNat_of_lt narrow, peer.latency_of_count counted narrow⟩

/-- After one round trip the record is idle with one sample, which is its mean. -/
theorem answered_record_latency :
    let t := (Traced.receivedEvent ⟨.new (.fromSecs 600) ⟨fun n => n.toUInt64⟩, [], []⟩ ⟨0⟩
      (.peerNegotiated (.v4 0x7f000001 8333) ⟨0⟩ 0)).receivedEvent ⟨50⟩
        (.messageReceived (.v4 0x7f000001 8333) (.pong 1))
    Reachable t ∧ ∀ p peer, t.manager.peers.lookup p = some peer →
      peer.latencies.length ≤ maxRecordedLatencies ∧
      ∀ since, peer.state = .idle since →
        0 < peer.latencies.length ∧ peer.latencies.length.toUInt32.toNat = peer.latencies.length ∧
        peer.latency = (LocalDuration.sum peer.latencies).map fun sum => ⟨sum.millis / peer.latencies.length⟩ := by
  intro t
  have reach : Reachable t := .step (.step (.new _ _) (.receivedEvent _ _)) (.receivedEvent _ _)
  exact ⟨reach, latency_history_bounded reach⟩

/-- The latency an idle record reports is the floor mean of its session's newest
`MAX_RECORDED_LATENCIES` round trips, between the shortest and the longest of them. -/
theorem idle_latency_is_mean_round_trip (reach : Reachable t) {p : PeerId} {peer : Peer}
    {since : LocalTime} (found : t.manager.peers.lookup p = some peer) (idle : peer.state = .idle since)
    (small : ∀ trip ∈ samples p (lifetime p t.history), trip.millis < 2 ^ 122) :
    let trips := (samples p (lifetime p t.history)).take maxRecordedLatencies
    trips ≠ [] ∧ peer.latency = some ⟨(trips.map LocalDuration.millis).sum / trips.length⟩ ∧
      (∃ low ∈ trips, (∀ trip ∈ trips, low ≤ trip) ∧
        low.millis ≤ (trips.map LocalDuration.millis).sum / trips.length) ∧
      ∃ high ∈ trips, (∀ trip ∈ trips, trip ≤ high) ∧
        (trips.map LocalDuration.millis).sum / trips.length ≤ high.millis := by
  intro trips
  obtain ⟨address, state, latencies⟩ := peer
  obtain ⟨kept, answered⟩ := (reach.tracked p).sampled _ found
  obtain rfl : latencies = trips := kept
  have nonempty : trips ≠ [] := answered since idle
  have bounded : trips.length ≤ maxRecordedLatencies := List.length_take_le _ _
  have short : ∀ trip ∈ trips, trip.millis < 2 ^ 122 := fun trip member => small trip (List.mem_of_mem_take member)
  exact ⟨nonempty, Peer.latency_eq_mean _ (total_lt_of_small bounded short) (List.length_pos.mpr nonempty)
    (bounded.trans_lt (by decide)), exists_least_le_mean nonempty, exists_mean_le_greatest nonempty⟩

/-- After one round trip of 50 ms the idle record reports a latency of 50 ms. -/
theorem answered_record_latency_mean :
    let a : PeerId := .v4 0x7f000001 8333
    let t := (Traced.receivedEvent ⟨.new (.fromSecs 600) ⟨fun n => n.toUInt64⟩, [], []⟩ ⟨0⟩
      (.peerNegotiated a ⟨0⟩ 0)).receivedEvent ⟨50⟩ (.messageReceived a (.pong 1))
    let peer : Peer := ⟨a, .idle ⟨50⟩, [⟨50⟩]⟩
    Reachable t ∧ t.manager.peers.lookup a = some peer ∧
      (∀ trip ∈ samples a (lifetime a t.history), trip.millis < 2 ^ 122) ∧ peer.latency = some ⟨50⟩ := by
  intro a t peer
  have reach : Reachable t := .step (.step (.new _ _) (.receivedEvent _ _)) (.receivedEvent _ _)
  have found : t.manager.peers.lookup a = some peer := by decide
  have small : ∀ trip ∈ samples a (lifetime a t.history), trip.millis < 2 ^ 122 := by decide
  exact ⟨reach, found, small, (idle_latency_is_mean_round_trip reach found rfl small).2.1.trans (by decide)⟩

/-- `Peer::latency` divides by zero (a panic, written `none`) exactly on a record whose session
has no accepted `pong` yet. -/
theorem latency_undefined_before_first_pong (reach : Reachable t) {p : PeerId} {peer : Peer}
    (found : t.manager.peers.lookup p = some peer)
    (small : ∀ trip ∈ samples p (lifetime p t.history), trip.millis < 2 ^ 122) :
    peer.latency = none ↔ answers p (lifetime p t.history) = [] := by
  obtain ⟨address, state, latencies⟩ := peer
  obtain ⟨kept, -⟩ := (reach.tracked p).sampled _ found
  obtain rfl : latencies = (samples p (lifetime p t.history)).take maxRecordedLatencies := kept
  have emptied : (samples p (lifetime p t.history)).take maxRecordedLatencies = [] ↔
      answers p (lifetime p t.history) = [] := by
    simp [samples, maxRecordedLatencies]
  rw [← emptied]
  constructor
  · intro undefined
    by_contra nonempty
    have bounded := List.length_take_le maxRecordedLatencies (samples p (lifetime p t.history))
    have short : ∀ trip ∈ (samples p (lifetime p t.history)).take maxRecordedLatencies, trip.millis < 2 ^ 122 :=
      fun trip member => small trip (List.mem_of_mem_take member)
    rw [Peer.latency_eq_mean ⟨address, state, _⟩ (total_lt_of_small bounded short) (List.length_pos.mpr nonempty)
      (bounded.trans_lt (by decide))] at undefined
    cases undefined
  · intro empty
    simp only [Peer.latency, empty]
    rfl

/-- Right after a negotiation the record has no sample, and `latency` would divide by zero; after
the first answer it is defined. -/
theorem fresh_record_latency_undefined :
    let a : PeerId := .v4 0x7f000001 8333
    let negotiated := Traced.receivedEvent ⟨.new (.fromSecs 600) ⟨fun n => n.toUInt64⟩, [], []⟩ ⟨0⟩ (.peerNegotiated a ⟨0⟩ 0)
    let peer : Peer := ⟨a, .awaitingPong 1 ⟨0⟩, []⟩
    Reachable negotiated ∧ negotiated.manager.peers.lookup a = some peer ∧
      (∀ trip ∈ samples a (lifetime a negotiated.history), trip.millis < 2 ^ 122) ∧
      (peer.latency = none ↔ answers a (lifetime a negotiated.history) = []) := by
  intro a negotiated peer
  have reach : Reachable negotiated := .step (.new _ _) (.receivedEvent _ _)
  have found : negotiated.manager.peers.lookup a = some peer := by decide
  have small : ∀ trip ∈ samples a (lifetime a negotiated.history), trip.millis < 2 ^ 122 := by decide
  exact ⟨reach, found, small, latency_undefined_before_first_pong reach found small⟩

end NakamotoP2p.Fsm.PingMgr
