import NakamotoP2p.Fsm.PingMgr.Chronicle
import NakamotoP2p.Fsm.PingMgr.Nonces

namespace NakamotoP2p.Fsm.PingMgr

/-- The pings to `p` of its current session, newest first, with the time each was enqueued. -/
def sessionPings (p : PeerId) (h : List Obs) : List (LocalTime × UInt64) :=
  (lifetime p h).filterMap (Obs.pingTo p)

variable {p : PeerId}

/-- Every observation since the newest ping to `p` is no earlier than any ping to `p`. -/
theorem ping_le_since {h : List Obs} (ordered : Chronological h) {o q : Obs} {sent : LocalTime}
    {nonce : UInt64} (since : o ∈ sinceLastPing p h) (member : q ∈ h) (pinged : q.pingTo p = some (sent, nonce)) :
    sent ≤ o.time := by
  have older : q ∉ sinceLastPing p h := fun inside => by
    simpa [pinged] using List.mem_takeWhile_imp inside
  rw [← List.takeWhile_append_dropWhile (fun o => (o.pingTo p).isNone) h] at ordered member
  have later := (List.pairwise_append.mp ordered).2.2 o since q
    ((List.mem_append.mp member).resolve_left older)
  rwa [Obs.eq_of_pingTo pinged] at later

/-- Along a history whose pings all had a cause and whose clock never went back, each ping of
`p`'s session comes at least `PING_INTERVAL` after every older ping of the session. -/
theorem sessionPings_spaced {h : List Obs} (caused : Throughout PingCaused h) (ordered : Chronological h) :
    (sessionPings p h).Pairwise fun newer older => older.1.millis + pingInterval.millis ≤ newer.1.millis := by
  induction h with
  | nil => exact .nil
  | cons o h ih =>
    obtain ⟨cause, caused⟩ := caused
    have ordered' := ordered.of_cons
    cases quiet : o.negotiates p with
    | true => simp [sessionPings, lifetime, quiet]
    | false =>
      rw [sessionPings, lifetime_cons h quiet, List.filterMap_cons]
      cases pinged : o.pingTo p with
      | none => exact ih caused ordered'
      | some ping =>
        obtain ⟨sent, nonce⟩ := ping
        refine List.pairwise_cons.mpr ⟨fun older member => ?_, ih caused ordered'⟩
        rcases cause p sent nonce pinged with ⟨_, _, rest, rfl⟩ | ⟨answered, _, ⟨o', since, accepted⟩, -, elapsed⟩
        · rw [lifetime, List.takeWhile_cons_of_neg (by simp [Obs.negotiates])] at member
          cases member
        · obtain ⟨q, inSession, qPinged⟩ := List.mem_filterMap.mp member
          have early := ping_le_since ordered' since (List.takeWhile_subset _ inSession) qPinged
          rw [Obs.eq_of_acceptedFrom accepted] at early
          have positive : 0 < pingInterval.millis := by decide
          simp only [Obs.time, LocalTime.le_iff, LocalDuration.le_iff, LocalTime.sub_millis] at early elapsed ⊢
          omega

/-- Times at least `gap` apart, newest first, all within `a` and `b`: at most one per `gap` of
the window, plus one. -/
theorem spaced_length_le {gap : Nat} (pings : List (LocalTime × UInt64))
    (spaced : pings.Pairwise fun newer older => older.1.millis + gap ≤ newer.1.millis) (a b : Nat)
    (within : ∀ ping ∈ pings, a ≤ ping.1.millis ∧ ping.1.millis ≤ b) : pings.length * gap ≤ b - a + gap := by
  induction pings generalizing b with
  | nil => simp
  | cons newest rest ih =>
    obtain ⟨after, spaced⟩ := List.pairwise_cons.mp spaced
    have bound := ih spaced (newest.1.millis - gap) fun ping member =>
      ⟨(within ping (List.mem_cons_of_mem _ member)).1, by have := after ping member; omega⟩
    have top := (within newest (List.mem_cons_self _ _)).2
    rw [List.length_cons, Nat.add_mul, Nat.one_mul]
    cases rest with
    | nil => simp
    | cons next rest =>
      have low := (within next (List.mem_cons_of_mem _ (List.mem_cons_self _ _))).1
      have gapBelow := after next (List.mem_cons_self _ _)
      omega

/-- Within a session the pings to `p` are `PING_INTERVAL` apart, so a window from `a` to `b`
holds at most `(b - a) / PING_INTERVAL + 1` of them. -/
theorem pings_rate_limited {t : Traced} (reach : Reachable t) (ordered : Chronological t.history) (p : PeerId) :
    (sessionPings p t.history).Pairwise
        (fun newer older => older.1.millis + pingInterval.millis ≤ newer.1.millis) ∧
      ∀ a b : LocalTime, ((sessionPings p t.history).filter fun ping => a ≤ ping.1 ∧ ping.1 ≤ b).length *
        pingInterval.millis ≤ (b - a).millis + pingInterval.millis := by
  have spaced := sessionPings_spaced (p := p) reach.chronicle.caused ordered
  refine ⟨spaced, fun a b => spaced_length_le _ (spaced.sublist (List.filter_sublist _)) a.millis b.millis
    fun ping member => ?_⟩
  simpa using (List.mem_filter.mp member).2

/-- A peer that answers every ping at once is pinged on the negotiation and then on the ticks
two minutes after each answer; the three pings fit the bound in every window. -/
theorem answered_peer_pinged_once_per_interval :
    let a : PeerId := .v4 0x7f000001 8333
    let start : Traced := ⟨.new (.fromSecs 600) ⟨fun n => n.toUInt64⟩, [], []⟩
    let answered := (start.receivedEvent ⟨0⟩ (.peerNegotiated a ⟨0⟩ 0)).receivedEvent ⟨50⟩ (.messageReceived a (.pong 1))
    let again := (answered.timerExpired ⟨120050⟩).receivedEvent ⟨120100⟩ (.messageReceived a (.pong 2))
    let t := again.timerExpired ⟨240100⟩
    Reachable t ∧ Chronological t.history ∧ sessionPings a t.history = [(⟨240100⟩, 3), (⟨120050⟩, 2), (⟨0⟩, 1)] ∧
      ∀ lo hi : LocalTime, ((sessionPings a t.history).filter fun ping => lo ≤ ping.1 ∧ ping.1 ≤ hi).length *
        pingInterval.millis ≤ (hi - lo).millis + pingInterval.millis := by
  intro a start answered again t
  have first : Reachable answered := .step (.step (.new _ _) (.receivedEvent _ _)) (.receivedEvent _ _)
  have second : Reachable again := .step (.step first (.tick answered ⟨120050⟩)) (.receivedEvent _ _)
  have reach : Reachable t := .step second (.tick again ⟨240100⟩)
  have ordered : Chronological t.history := by decide
  exact ⟨reach, ordered, by decide, (pings_rate_limited reach ordered a).2⟩

/-- The interval counts from the answer: at the deadline of the `PING_INTERVAL` timer armed
with a ping, its idle record is due only if the `pong` came at the reading of the ping. -/
theorem interval_deadline_due_iff_instant_pong {t : Traced} (reach : Reachable t)
    (ordered : Chronological t.history) {peer : Peer} {since sent : LocalTime} {nonce : UInt64}
    (found : t.manager.peers.lookup p = some peer) (idle : peer.state = .idle since)
    (last : lastPing p t.history = some (sent, nonce)) (now : LocalTime)
    (deadline : now.millis = sent.millis + pingInterval.millis) :
    peer.due now = true ↔ since = sent := by
  obtain ⟨sent', nonce', last', newest⟩ := (reach.tracked p).idle peer since found idle
  rw [lastPing_of_lifetime last'] at last
  obtain ⟨rfl, rfl⟩ := Prod.mk.inj (Option.some.inj last.symm)
  obtain ⟨o, answered, accepted⟩ := List.exists_of_findSome?_eq_some newest
  have late := ping_le_since ordered answered (ping_mem_of_lastPing (lastPing_of_lifetime last'))
    (show (Obs.enqueued sent (.send p (.ping nonce))).pingTo p = some (sent, nonce) by simp [Obs.pingTo])
  rw [Obs.eq_of_acceptedFrom accepted] at late
  have positive : 0 < pingInterval.millis := by decide
  obtain ⟨since⟩ := since
  obtain ⟨sent⟩ := sent
  simp only [Peer.due, idle, decide_eq_true_eq, LocalDuration.le_iff, LocalTime.sub_millis, LocalTime.mk.injEq,
    Obs.time, LocalTime.le_iff] at late deadline ⊢
  omega

/-- An answer 50 ms after the tick's ping leaves the record resting at the deadline of the
interval timer armed with that ping. -/
theorem late_answer_outlasts_interval_timer :
    let a : PeerId := .v4 0x7f000001 8333
    let start : Traced := ⟨.new (.fromSecs 600) ⟨fun n => n.toUInt64⟩, [], []⟩
    let answered := (start.receivedEvent ⟨0⟩ (.peerNegotiated a ⟨0⟩ 0)).receivedEvent ⟨50⟩ (.messageReceived a (.pong 1))
    let t := (answered.timerExpired ⟨120050⟩).receivedEvent ⟨120100⟩ (.messageReceived a (.pong 2))
    let peer : Peer := ⟨a, .idle ⟨120100⟩, [⟨50⟩, ⟨50⟩]⟩
    Reachable t ∧ Chronological t.history ∧ t.manager.peers.lookup a = some peer ∧
      lastPing a t.history = some (⟨120050⟩, 2) ∧ peer.due ⟨240050⟩ = false ∧
      (peer.due ⟨240050⟩ = true ↔ (⟨120100⟩ : LocalTime) = ⟨120050⟩) := by
  intro a start answered t peer
  have reach : Reachable t :=
    .step (.step (.step (.step (.new _ _) (.receivedEvent _ _)) (.receivedEvent _ _)) (.tick answered ⟨120050⟩))
      (.receivedEvent _ _)
  have ordered : Chronological t.history := by decide
  have found : t.manager.peers.lookup a = some peer := by decide
  have last : lastPing a t.history = some (⟨120050⟩, 2) := by decide
  exact ⟨reach, ordered, found, last, by decide,
    interval_deadline_due_iff_instant_pong reach ordered found rfl last ⟨240050⟩ rfl⟩

end NakamotoP2p.Fsm.PingMgr
