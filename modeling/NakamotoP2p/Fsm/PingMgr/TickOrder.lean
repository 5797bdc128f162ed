import NakamotoP2p.Fsm.PingMgr.Nonces

/-! A hash map fixes no order for `values_mut`; the order a tick visits the records in decides
only which draw each pinged record gets. -/

namespace NakamotoP2p.Fsm.PingMgr

/-- An effect with a ping's nonce blanked out. -/
def Io.unnonced : Io → Io
  | .send addr (.ping _) => .send addr (.ping 0)
  | io => io

/-- A record with the nonce it awaits blanked out. -/
def Peer.unnonced (peer : Peer) : Peer :=
  match peer.state with
  | .awaitingPong _ since => { peer with state := .awaitingPong 0 since }
  | .idle _ => peer

/-- What a tick enqueues for a record, nonce blanked out: the loop body run on a generator that
draws 0. -/
def tickPlan (pingTimeout : LocalDuration) (now : LocalTime) (peer : Peer) : List Io :=
  (tickPeer pingTimeout now peer ⟨fun _ => 0⟩ ⟨[]⟩).2.2.queue

section Step

variable {pingTimeout : LocalDuration} {now : LocalTime} {p : PeerId} {peer : Peer}

/-- A record's effects are its plan, up to the nonce. -/
theorem TickStep.plan {peer' : Peer} {ios : List Io} (step : TickStep pingTimeout now p peer peer' ios) :
    ios.map Io.unnonced = tickPlan pingTimeout now peer := by
  cases step with
  | timedOut overdue => simp [tickPlan, tickPeer, overdue, Io.unnonced]
  | awaiting pending =>
    have early : ¬pingTimeout ≤ now - _ := Nat.not_le_of_lt pending
    simp [tickPlan, tickPeer, early]
  | due elapsed => simp [tickPlan, tickPeer, elapsed, Io.unnonced, Rng.u64_eq]
  | resting early =>
    have early : ¬pingInterval ≤ now - _ := Nat.not_le_of_lt early
    simp [tickPlan, tickPeer, early]

/-- A tick steps a record the same way in every run, up to the nonce of a fresh ping; a record
it does not ping it steps the same way exactly. -/
theorem TickStep.unique {peer₁ peer₂ : Peer} {ios₁ ios₂ : List Io}
    (first : TickStep pingTimeout now p peer peer₁ ios₁) (second : TickStep pingTimeout now p peer peer₂ ios₂) :
    peer₁.unnonced = peer₂.unnonced ∧ (peer.due now = false → peer₁ = peer₂) := by
  cases first with
  | timedOut overdue =>
    cases second with
    | timedOut => exact ⟨rfl, fun _ => rfl⟩
    | awaiting pending => exact absurd overdue (Nat.not_le_of_lt pending)
  | awaiting pending =>
    cases second with
    | timedOut overdue => exact absurd overdue (Nat.not_le_of_lt pending)
    | awaiting => exact ⟨rfl, fun _ => rfl⟩
  | due elapsed =>
    cases second with
    | due => exact ⟨rfl, fun idle => absurd idle (by simp [Peer.due, elapsed])⟩
    | resting early => exact absurd elapsed (Nat.not_le_of_lt early)
  | resting early =>
    cases second with
    | due elapsed => exact absurd elapsed (Nat.not_le_of_lt early)
    | resting => exact ⟨rfl, fun _ => rfl⟩

end Step

/-- The effects of a tick, nonces blanked out, are the records' plans in visiting order. -/
theorem TickRun.plans {pingTimeout : LocalDuration} {now : LocalTime} {entries entries' : Entries}
    {ios : List Io} (run : TickRun pingTimeout now entries entries' ios) :
    ios.map Io.unnonced = entries.flatMap fun e => tickPlan pingTimeout now e.2 := by
  induction run with
  | nil => rfl
  | cons step _ ih => rw [List.map_append, step.plan, ih]; rfl

/-- Two table orders leave the same generator, the same records and effects up to fresh nonces
and order, and the same nonces on the wire in the same sequence. -/
theorem tick_order_only_assigns_nonces (m : PingManager) (now : LocalTime) (peers peers' : Peers)
    (relaid : peers.table.entries.Perm m.peers.table.entries)
    (relaid' : peers'.table.entries.Perm m.peers.table.entries) :
    let first := { m with peers }
    let second := { m with peers := peers' }
    (first.timerExpired now).rng = (second.timerExpired now).rng ∧
    (∀ p, ((first.timerExpired now).peers.lookup p).map Peer.unnonced =
        ((second.timerExpired now).peers.lookup p).map Peer.unnonced ∧
      ∀ peer, m.peers.lookup p = some peer → peer.due now = false →
        (first.timerExpired now).peers.lookup p = (second.timerExpired now).peers.lookup p) ∧
    ((pushed first (first.timerExpired now)).map Io.unnonced).Perm
      ((pushed second (second.timerExpired now)).map Io.unnonced) ∧
    pingNonces ((pushed first (first.timerExpired now)).map (.enqueued now)) =
      pingNonces ((pushed second (second.timerExpired now)).map (.enqueued now)) := by
  intro first second
  have due : peers.table.entries.countP (fun e => e.2.due now) =
      peers'.table.entries.countP (fun e => e.2.due now) :=
    (relaid.countP_eq _).trans (relaid'.countP_eq _).symm
  obtain ⟨drawn, ios, grown, nonces⟩ := tickPeers_draws m.pingTimeout now peers.table.entries m.rng m.outbox
  obtain ⟨drawn', ios', grown', nonces'⟩ :=
    tickPeers_draws m.pingTimeout now peers'.table.entries m.rng m.outbox
  have pushed₁ : pushed first (first.timerExpired now) = ios := pushed_eq grown
  have pushed₂ : pushed second (second.timerExpired now) = ios' := pushed_eq grown'
  have run := first.timerExpired_run now
  have run' := second.timerExpired_run now
  refine ⟨(drawn.trans (by rw [due])).trans drawn'.symm, fun p => ?_, ?_, ?_⟩
  · cases found : m.peers.lookup p with
    | none =>
      rw [first.timerExpired_lookup_none now ((Peers.lookup_perm relaid p).trans found),
        second.timerExpired_lookup_none now ((Peers.lookup_perm relaid' p).trans found)]
      exact ⟨rfl, fun _ none => by cases none⟩
    | some peer =>
      obtain ⟨peer₁, _, _, _, found₁, step₁, -⟩ :=
        run.lookup first.peers.table.nodupKeys ((Peers.lookup_perm relaid p).trans found)
      obtain ⟨peer₂, _, _, _, found₂, step₂, -⟩ :=
        run'.lookup second.peers.table.nodupKeys ((Peers.lookup_perm relaid' p).trans found)
      have after₁ : (first.timerExpired now).peers.lookup p = some peer₁ := found₁
      have after₂ : (second.timerExpired now).peers.lookup p = some peer₂ := found₂
      obtain ⟨same, exact⟩ := step₁.unique step₂
      rw [after₁, after₂]
      refine ⟨congrArg some same, fun stored saved idle => ?_⟩
      obtain rfl := Option.some.inj saved
      rw [exact idle]
  · rw [run.plans, run'.plans]
    exact (relaid.flatMap_right _).trans (relaid'.flatMap_right _).symm
  · rw [pushed₁, pushed₂, nonces, nonces', due]

/-- Two peers negotiated in either order: the tick two minutes later pings both, with the same
generator and the same nonces on the wire in both orders. -/
theorem tick_orders_agree_on_two_peers :
    let a : PeerId := .v4 0x7f000001 8333
    let b : PeerId := .v4 0x7f000002 8333
    let start : Traced := ⟨.new (.fromSecs 600) ⟨fun n => n.toUInt64⟩, [], []⟩
    let m := ((((start.receivedEvent ⟨0⟩ (.peerNegotiated a ⟨0⟩ 0)).receivedEvent ⟨0⟩ (.peerNegotiated b ⟨0⟩ 0)).receivedEvent
      ⟨50⟩ (.messageReceived a (.pong 1))).receivedEvent ⟨50⟩ (.messageReceived b (.pong 2))).manager
    let peers' := ((((start.receivedEvent ⟨0⟩ (.peerNegotiated b ⟨0⟩ 0)).receivedEvent ⟨0⟩ (.peerNegotiated a ⟨0⟩ 0)).receivedEvent
      ⟨50⟩ (.messageReceived b (.pong 1))).receivedEvent ⟨50⟩ (.messageReceived a (.pong 2))).manager.peers
    let first := { m with peers := m.peers }
    let second := { m with peers := peers' }
    m.peers.table.entries.Perm m.peers.table.entries ∧ peers'.table.entries.Perm m.peers.table.entries ∧
      peers'.table.entries ≠ m.peers.table.entries ∧
      (first.timerExpired ⟨120050⟩).rng = (second.timerExpired ⟨120050⟩).rng ∧
      pingNonces ((pushed first (first.timerExpired ⟨120050⟩)).map (.enqueued ⟨120050⟩)) =
        pingNonces ((pushed second (second.timerExpired ⟨120050⟩)).map (.enqueued ⟨120050⟩)) := by
  intro a b start m peers' first second
  have relaid : peers'.table.entries.Perm m.peers.table.entries := by decide
  have shown := tick_order_only_assigns_nonces m ⟨120050⟩ m.peers peers' (.refl _) relaid
  exact ⟨.refl _, relaid, by decide, shown.1, shown.2.2.2⟩

section Repeat

variable {pingTimeout : LocalDuration} {now : LocalTime}

/-- A record a tick has stepped is not due at the same reading. -/
theorem TickStep.not_due {p : PeerId} {peer peer' : Peer} {ios : List Io}
    (step : TickStep pingTimeout now p peer peer' ios) : peer'.due now = false := by
  cases step with
  | resting early => exact decide_eq_false (Nat.not_le_of_lt early)
  | _ => rfl

/-- At the reading of a tick a second tick finds the record as the first left it and keeps it,
and repeats only the first tick's disconnect. -/
theorem TickStep.again {p : PeerId} {peer peer' peer'' : Peer} {ios ios' : List Io}
    (positive : 0 < pingTimeout.millis) (first : TickStep pingTimeout now p peer peer' ios)
    (second : TickStep pingTimeout now p peer' peer'' ios') :
    peer'' = peer' ∧ ios' = ios.filter (· matches .disconnect ..) := by
  cases first with
  | timedOut overdue =>
    cases second with
    | timedOut => simp
    | awaiting pending => exact absurd overdue (Nat.not_le_of_lt pending)
  | awaiting pending =>
    cases second with
    | timedOut overdue => exact absurd overdue (Nat.not_le_of_lt pending)
    | awaiting => simp
  | due =>
    cases second with
    | timedOut overdue =>
      simp only [LocalDuration.le_iff, LocalTime.sub_millis, Nat.sub_self] at overdue
      omega
    | awaiting => simp
  | resting early =>
    cases second with
    | due elapsed => exact absurd elapsed (Nat.not_le_of_lt early)
    | resting => simp

theorem TickRun.again {entries entries' entries'' : Entries} {ios ios' : List Io}
    (positive : 0 < pingTimeout.millis) (first : TickRun pingTimeout now entries entries' ios)
    (second : TickRun pingTimeout now entries' entries'' ios') :
    entries'' = entries' ∧ ios' = ios.filter (· matches .disconnect ..) := by
  induction first generalizing entries'' ios' with
  | nil => cases second; simp
  | cons step _ ih =>
    cases second with
    | cons step' rest' =>
      obtain ⟨rfl, rfl⟩ := step.again positive step'
      obtain ⟨rfl, rfl⟩ := ih rest'
      simp

theorem TickRun.none_due {entries entries' : Entries} {ios : List Io}
    (run : TickRun pingTimeout now entries entries' ios) : entries'.countP (fun e => e.2.due now) = 0 := by
  induction run with
  | nil => rfl
  | cons step _ ih => simp [step.not_due, ih]

end Repeat

/-- A second tick at the same reading keeps every record and the generator, pings nobody, and
repeats exactly the first tick's disconnects. -/
theorem repeated_tick_repeats_disconnects (m : PingManager) (now : LocalTime) (positive : 0 < m.pingTimeout.millis) :
    ((m.timerExpired now).timerExpired now).peers = (m.timerExpired now).peers ∧
      ((m.timerExpired now).timerExpired now).rng = (m.timerExpired now).rng ∧
      pushed (m.timerExpired now) ((m.timerExpired now).timerExpired now) =
        (pushed m (m.timerExpired now)).filter (· matches .disconnect ..) := by
  have first := m.timerExpired_run now
  obtain ⟨kept, repeated⟩ := first.again positive ((m.timerExpired now).timerExpired_run now)
  have drawn := (tickPeers_draws m.pingTimeout now (m.timerExpired now).peers.table.entries
    (m.timerExpired now).rng (m.timerExpired now).outbox).1
  rw [first.none_due, Rng.drop_zero] at drawn
  exact ⟨Peers.ext (AList.ext kept), drawn, repeated⟩

/-- One peer answered and due, one overdue: a second tick at the reading of the first pings
nobody and disconnects the overdue peer once more. -/
theorem second_tick_only_disconnects :
    let a : PeerId := .v4 0x7f000001 8333
    let b : PeerId := .v4 0x7f000002 8333
    let start : Traced := ⟨.new (.fromSecs 600) ⟨fun n => n.toUInt64⟩, [], []⟩
    let m := (((start.receivedEvent ⟨0⟩ (.peerNegotiated a ⟨0⟩ 0)).receivedEvent ⟨0⟩ (.peerNegotiated b ⟨0⟩ 0)).receivedEvent
      ⟨50⟩ (.messageReceived a (.pong 1))).manager
    let once := m.timerExpired ⟨600000⟩
    0 < m.pingTimeout.millis ∧
      pushed m once = [.disconnect b (.peerTimeout "ping"), .send a (.ping 3), .setTimer (.fromSecs 600),
        .setTimer pingInterval] ∧
      (once.timerExpired ⟨600000⟩).peers = once.peers ∧ (once.timerExpired ⟨600000⟩).rng = once.rng ∧
      pushed once (once.timerExpired ⟨600000⟩) = (pushed m once).filter (· matches .disconnect ..) := by
  intro a b start m once
  have positive : 0 < m.pingTimeout.millis := by decide
  exact ⟨positive, by decide, repeated_tick_repeats_disconnects m ⟨600000⟩ positive⟩

end NakamotoP2p.Fsm.PingMgr
