import NakamotoP2p.Fsm.PingMgr.Run

namespace NakamotoP2p

/-- The generator after `k` draws. -/
def Rng.drop (rng : Rng) (k : Nat) : Rng := ⟨fun i => rng.draws (i + k)⟩

@[simp] theorem Rng.drop_zero (rng : Rng) : rng.drop 0 = rng := rfl

@[simp] theorem Rng.drop_drop (rng : Rng) (j k : Nat) : (rng.drop k).drop j = rng.drop (k + j) := by
  simp only [Rng.drop, Rng.mk.injEq]
  funext i
  rw [Nat.add_assoc, Nat.add_comm j k]

@[simp] theorem Rng.drop_draws (rng : Rng) (k i : Nat) : (rng.drop k).draws i = rng.draws (i + k) := rfl

theorem Rng.u64_eq (rng : Rng) : rng.u64 = (rng.draws 0, rng.drop 1) := rfl

end NakamotoP2p

namespace NakamotoP2p.Fsm.PingMgr

theorem pingNonces_append (xs ys : List Obs) : pingNonces (xs ++ ys) = pingNonces xs ++ pingNonces ys :=
  List.filterMap_append _ _ _

/-- The nonces a call's record adds, oldest first: those of its pings, in the order pushed. -/
theorem pingNonces_record (now : LocalTime) (call : Obs) (ios : List Io) (h : List Obs)
    (quiet : call.pingNonce = none) :
    (pingNonces (record now call ios h)).reverse =
      (pingNonces h).reverse ++ pingNonces (ios.map (.enqueued now)) := by
  simp [record, pingNonces_append, pingNonces, List.filterMap_reverse, List.filterMap_cons, quiet]

/-- No event but a negotiation moves the generator. -/
theorem PingManager.receivedEvent_rng (m : PingManager) (now : LocalTime) {event : Event}
    (other : ∀ addr services height, event ≠ .peerNegotiated addr services height) :
    (m.receivedEvent now event).rng = m.rng := by
  cases event with
  | peerNegotiated addr services height => exact absurd rfl (other addr services height)
  | messageReceived sender message =>
    cases message with
    | ping nonce => simp [PingManager.receivedEvent, PingManager.receivedPing_eq]
    | pong nonce => exact m.receivedPong_rng now sender nonce
    | other command => rfl
  | _ => rfl

/-- Effects with no ping add no nonce. -/
theorem pingNonces_unpinged {now : LocalTime} {ios : List Io}
    (noPing : ∀ io ∈ ios, ∀ q nonce, io ≠ .send q (.ping nonce)) : pingNonces (ios.map (.enqueued now)) = [] := by
  refine List.filterMap_eq_nil_iff.mpr fun o member => ?_
  obtain ⟨io, mine, rfl⟩ := List.mem_map.mp member
  cases io with
  | send q message =>
    cases message with
    | ping nonce => exact absurd rfl (noPing _ mine q nonce)
    | _ => rfl
  | _ => rfl

/-- Whether a tick pings the record: it is idle, and the interval has passed. -/
def Peer.due (now : LocalTime) (peer : Peer) : Bool :=
  match peer.state with
  | .idle since => decide (pingInterval ≤ now - since)
  | .awaitingPong .. => false

/-- One turn of the tick loop draws once when it pings and not otherwise. -/
theorem tickPeer_draws (pingTimeout : LocalDuration) (now : LocalTime) (peer : Peer) (rng : Rng)
    (outbox : Outbox) :
    (tickPeer pingTimeout now peer rng outbox).2.1 = rng.drop (if peer.due now then 1 else 0) ∧
      ∃ ios, (tickPeer pingTimeout now peer rng outbox).2.2.queue = outbox.queue ++ ios ∧
        pingNonces (ios.map (.enqueued now)) = (List.range (if peer.due now then 1 else 0)).map rng.draws := by
  obtain ⟨p, state, latencies⟩ := peer
  cases state with
  | awaitingPong nonce since =>
    by_cases overdue : pingTimeout ≤ now - since
    · exact ⟨by simp [tickPeer, overdue, Peer.due], [.disconnect p (.peerTimeout "ping")],
        by simp [tickPeer, overdue], by simp [Peer.due]; rfl⟩
    · exact ⟨by simp [tickPeer, overdue, Peer.due], [], by simp [tickPeer, overdue], by simp [Peer.due]; rfl⟩
  | idle since =>
    by_cases elapsed : pingInterval ≤ now - since
    · exact ⟨by simp [tickPeer, elapsed, Peer.due, Rng.u64_eq],
        [.send p (.ping (rng.draws 0)), .setTimer pingTimeout, .setTimer pingInterval],
        by simp [tickPeer, elapsed, Rng.u64_eq], by simp [Peer.due, elapsed]; rfl⟩
    · exact ⟨by simp [tickPeer, elapsed, Peer.due], [], by simp [tickPeer, elapsed],
        by simp [Peer.due, elapsed]; rfl⟩

/-- The tick loop draws once per record it pings, in the order it sends the pings. -/
theorem tickPeers_draws (pingTimeout : LocalDuration) (now : LocalTime) (entries : Entries) (rng : Rng)
    (outbox : Outbox) :
    (tickPeers pingTimeout now entries rng outbox).2.1 = rng.drop (entries.countP fun e => e.2.due now) ∧
      ∃ ios, (tickPeers pingTimeout now entries rng outbox).2.2.queue = outbox.queue ++ ios ∧
        pingNonces (ios.map (.enqueued now)) =
          (List.range (entries.countP fun e => e.2.due now)).map rng.draws := by
  induction entries generalizing rng outbox with
  | nil => exact ⟨rfl, [], by simp [tickPeers], rfl⟩
  | cons entry rest ih =>
    obtain ⟨p, peer⟩ := entry
    obtain ⟨drawn, ios, pushed, nonces⟩ := tickPeer_draws pingTimeout now peer rng outbox
    obtain ⟨drawn', ios', pushed', nonces'⟩ := ih (tickPeer pingTimeout now peer rng outbox).2.1
      (tickPeer pingTimeout now peer rng outbox).2.2
    have counted : (⟨p, peer⟩ :: rest : Entries).countP (fun e => e.2.due now) =
        (if peer.due now then 1 else 0) + rest.countP fun e => e.2.due now := by
      rw [List.countP_cons, Nat.add_comm]
    rw [counted]
    refine ⟨by simp only [tickPeers]; rw [drawn', drawn, Rng.drop_drop], ios ++ ios',
      by simp [tickPeers, pushed', pushed], ?_⟩
    rw [List.map_append, pingNonces_append, nonces, nonces', drawn, List.range_add, List.map_append,
      List.map_map]
    congr 1
    exact List.map_congr_left fun i _ => by simp [Nat.add_comm]

/-- A step draws as many values as it sends pings, and sends them in the order drawn. -/
theorem Step.draws {t t' : Traced} (move : Step t t') :
    ∃ j, t'.manager.rng = t.manager.rng.drop j ∧
      (pingNonces t'.history).reverse = (pingNonces t.history).reverse ++ (List.range j).map t.manager.rng.draws := by
  cases move with
  | receivedEvent now event =>
    rcases t.manager.receivedEvent_pushed now event with ⟨addr, services, height, rfl, pinged⟩ | ⟨other, noPing⟩
    · refine ⟨1, rfl, ?_⟩
      simp only [Traced.receivedEvent]
      rw [pingNonces_record now (.delivered now (.peerNegotiated addr services height) _) _ _ rfl, pinged]
      rfl
    · refine ⟨0, t.manager.receivedEvent_rng now other, ?_⟩
      simp only [Traced.receivedEvent]
      rw [pingNonces_record now (.delivered now event (t.manager.pongAccepted now event)) _ _ rfl,
        pingNonces_unpinged noPing]
      simp
  | timerExpired now peers relaid =>
    obtain ⟨drawn, ios, pushed, nonces⟩ := tickPeers_draws t.manager.pingTimeout now peers.table.entries
      t.manager.rng t.manager.outbox
    refine ⟨_, drawn, ?_⟩
    simp only [Traced.timerExpired]
    rw [pingNonces_record now (.ticked now) _ _ rfl, pushed_eq pushed, nonces]
  | next => exact ⟨0, rfl, by simp [Traced.next]⟩

/-- The nonces on the wire, oldest first, are the generator's draws from the second on (the
first seeds the map's hasher), each used once: distinct draws give distinct nonces. -/
theorem ping_nonces_are_fresh_draws {pingTimeout : LocalDuration} {rng : Rng} {t : Traced}
    (run : Relation.ReflTransGen Step ⟨.new pingTimeout rng, [], []⟩ t) :
    (∃ k, t.manager.rng = rng.drop (k + 1) ∧
        (pingNonces t.history).reverse = (List.range k).map fun i => rng.draws (i + 1)) ∧
      ((∀ i < (pingNonces t.history).length, ∀ j < (pingNonces t.history).length,
        rng.draws (i + 1) = rng.draws (j + 1) → i = j) → (pingNonces t.history).Nodup) := by
  have drawn : ∃ k, t.manager.rng = (rng.drop 1).drop k ∧
      (pingNonces t.history).reverse = (List.range k).map (rng.drop 1).draws := by
    induction run with
    | refl => exact ⟨0, rfl, rfl⟩
    | tail _ move ih =>
      obtain ⟨k, rng_eq, nonces⟩ := ih
      obtain ⟨j, rng_eq', nonces'⟩ := move.draws
      refine ⟨k + j, by rw [rng_eq', rng_eq]; simp only [Rng.drop_drop, Nat.add_assoc], ?_⟩
      rw [nonces', nonces, rng_eq, List.range_add, List.map_append, List.map_map]
      congr 1
      exact List.map_congr_left fun i _ => by simp only [Rng.drop_draws, Function.comp, List.map]; congr 1; omega
  obtain ⟨k, rng_eq, nonces⟩ := drawn
  refine ⟨⟨k, by rw [rng_eq, Rng.drop_drop, Nat.add_comm], nonces⟩, fun distinct => ?_⟩
  have counted : (pingNonces t.history).length = k := by
    simpa using congrArg List.length nonces
  rw [← List.nodup_reverse, nonces]
  exact List.Nodup.map_on (fun i member j member' same =>
    distinct i (by simpa [counted] using member) j (by simpa [counted] using member') same) (List.nodup_range k)

/-- A run that negotiates two peers uses the draws after the hasher's, 1 and 2, which differ,
so its nonces do. -/
theorem two_negotiations_fresh_nonces :
    let rng : Rng := ⟨fun n => n.toUInt64⟩
    let t := (Traced.receivedEvent ⟨.new (.fromSecs 600) rng, [], []⟩ ⟨0⟩
      (.peerNegotiated (.v4 0x7f000001 8333) ⟨0⟩ 0)).receivedEvent ⟨0⟩ (.peerNegotiated (.v4 0x7f000002 8333) ⟨0⟩ 0)
    Relation.ReflTransGen Step ⟨.new (.fromSecs 600) rng, [], []⟩ t ∧
      (∀ i < (pingNonces t.history).length, ∀ j < (pingNonces t.history).length,
        rng.draws (i + 1) = rng.draws (j + 1) → i = j) ∧ (pingNonces t.history).Nodup := by
  intro rng t
  have run : Relation.ReflTransGen Step ⟨.new (.fromSecs 600) rng, [], []⟩ t :=
    .tail (.single (.receivedEvent _ _)) (.receivedEvent _ _)
  have distinct : ∀ i < (pingNonces t.history).length, ∀ j < (pingNonces t.history).length,
      rng.draws (i + 1) = rng.draws (j + 1) → i = j := by
    have length : (pingNonces t.history).length = 2 := rfl
    rw [length]
    decide
  exact ⟨run, distinct, (ping_nonces_are_fresh_draws run).2 distinct⟩

end NakamotoP2p.Fsm.PingMgr
