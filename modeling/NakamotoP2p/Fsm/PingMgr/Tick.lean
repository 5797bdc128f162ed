import NakamotoP2p.Fsm.PingMgr

namespace NakamotoP2p.Fsm.PingMgr

/-- What a tick does to the record stored under `p`: the record before and after, and the
effects it enqueues for it. -/
inductive TickStep (pingTimeout : LocalDuration) (now : LocalTime) (p : PeerId) :
    Peer → Peer → List Io → Prop where
  /-- The awaited `pong` is overdue: a disconnect, and the record is kept as it was. -/
  | timedOut (overdue : pingTimeout ≤ now - since) :
      TickStep pingTimeout now p ⟨p, .awaitingPong nonce since, latencies⟩
        ⟨p, .awaitingPong nonce since, latencies⟩ [.disconnect p (.peerTimeout "ping")]
  | awaiting (pending : now - since < pingTimeout) :
      TickStep pingTimeout now p ⟨p, .awaitingPong nonce since, latencies⟩
        ⟨p, .awaitingPong nonce since, latencies⟩ []
  /-- The interval has passed since the last `pong`: a fresh ping with two timers, and the
  record awaits the ping's nonce. -/
  | due (elapsed : pingInterval ≤ now - since) :
      TickStep pingTimeout now p ⟨p, .idle since, latencies⟩ ⟨p, .awaitingPong nonce now, latencies⟩
        [.send p (.ping nonce), .setTimer pingTimeout, .setTimer pingInterval]
  | resting (early : now - since < pingInterval) :
      TickStep pingTimeout now p ⟨p, .idle since, latencies⟩ ⟨p, .idle since, latencies⟩ []

/-- A tick over a whole table: the same keys in the same order, each record stepped on its
own, and the effects of the records concatenated in that order. -/
inductive TickRun (pingTimeout : LocalDuration) (now : LocalTime) :
    Entries → Entries → List Io → Prop where
  | nil : TickRun pingTimeout now [] [] []
  | cons (step : TickStep pingTimeout now p peer peer' ios)
      (rest : TickRun pingTimeout now entries entries' more) :
      TickRun pingTimeout now (⟨p, peer⟩ :: entries) (⟨p, peer'⟩ :: entries') (ios ++ more)

theorem TickStep.addressed {pingTimeout : LocalDuration} {now : LocalTime} {p : PeerId}
    {peer peer' : Peer} {ios : List Io} (step : TickStep pingTimeout now p peer peer' ios) :
    ∀ io ∈ ios, ∀ q, io.peer? = some q → q = p := by
  cases step <;> simp [Io.peer?]

section Run

variable {pingTimeout : LocalDuration} {now : LocalTime} {entries entries' : Entries} {ios : List Io}

theorem TickRun.keys (run : TickRun pingTimeout now entries entries' ios) :
    entries'.keys = entries.keys := by
  induction run with
  | nil => rfl
  | cons _ _ ih => simp [List.keys_cons, ih]

theorem TickRun.addressed (run : TickRun pingTimeout now entries entries' ios) :
    ∀ io ∈ ios, ∀ q, io.peer? = some q → q ∈ entries.keys := by
  induction run with
  | nil => simp
  | cons step _ ih =>
    intro io member q addressed
    rcases List.mem_append.mp member with mine | later
    · simp [List.keys_cons, step.addressed io mine q addressed]
    · simp [List.keys_cons, ih io later q addressed]

/-- The record stored under `p` takes one `TickStep`, and every other effect of the tick is
addressed elsewhere. -/
theorem TickRun.lookup (run : TickRun pingTimeout now entries entries' ios)
    (nodup : entries.keys.Nodup) {p : PeerId} {peer : Peer} (found : entries.dlookup p = some peer) :
    ∃ peer' pre mine post, entries'.dlookup p = some peer' ∧
      TickStep pingTimeout now p peer peer' mine ∧ ios = pre ++ mine ++ post ∧
      ∀ io ∈ pre ++ post, io.peer? ≠ some p := by
  induction run with
  | nil => cases found
  | @cons q stored stored' mine₀ rest rest' more step rest ih =>
    rw [List.keys_cons, List.nodup_cons] at nodup
    by_cases same : q = p
    · subst same
      obtain rfl : stored = peer := by simpa using found
      refine ⟨stored', [], mine₀, more, by simp, step, by simp, fun io member addressed => ?_⟩
      exact nodup.1 (rest.addressed io (by simpa using member) q addressed)
    · obtain ⟨peer', pre, mine, post, found', step', split, elsewhere⟩ :=
        ih nodup.2 (by simpa [List.dlookup_cons_ne _ ⟨q, _⟩ (Ne.symm same)] using found)
      refine ⟨peer', mine₀ ++ pre, mine, post, by simpa [List.dlookup_cons_ne _ ⟨q, _⟩ (Ne.symm same)],
        step', by simp [split], fun io member addressed => ?_⟩
      rcases List.mem_append.mp member with early | late
      · rcases List.mem_append.mp early with head | before
        · exact same (step.addressed io head p addressed).symm
        · exact elsewhere io (List.mem_append_left _ before) addressed
      · exact elsewhere io (List.mem_append_right _ late) addressed

/-- A key that is not in the table gets no effect at all. -/
theorem TickRun.absent (run : TickRun pingTimeout now entries entries' ios) {p : PeerId}
    (missing : p ∉ entries.keys) : ∀ io ∈ ios, io.peer? ≠ some p :=
  fun io member addressed => missing (run.addressed io member p addressed)

/-- A tick disconnects `p` exactly when the record under `p` has awaited its `pong` for the
timeout or longer. -/
theorem TickRun.disconnects (run : TickRun pingTimeout now entries entries' ios)
    (nodup : entries.keys.Nodup) (p : PeerId) :
    Io.disconnect p (.peerTimeout "ping") ∈ ios ↔
      ∃ nonce since latencies, entries.dlookup p = some ⟨p, .awaitingPong nonce since, latencies⟩ ∧
        pingTimeout ≤ now - since := by
  cases found : entries.dlookup p with
  | none =>
    simp only [reduceCtorEq, false_and, exists_false, iff_false]
    exact fun member => run.absent (List.dlookup_eq_none.mp found) _ member rfl
  | some peer =>
    obtain ⟨_, pre, mine, post, -, step, rfl, elsewhere⟩ := run.lookup nodup found
    have outside : Io.disconnect p (.peerTimeout "ping") ∉ pre ++ post :=
      fun member => elsewhere _ member rfl
    have inMine : Io.disconnect p (.peerTimeout "ping") ∈ pre ++ mine ++ post ↔
        Io.disconnect p (.peerTimeout "ping") ∈ mine := by
      simp only [List.mem_append] at outside ⊢
      tauto
    rw [inMine]
    cases step with
    | timedOut overdue => exact iff_of_true (by simp) ⟨_, _, _, rfl, overdue⟩
    | awaiting pending => simpa using pending
    | due => simp
    | resting => simp

end Run

theorem Peers.entry_addressed (peers : Peers) {entry : Σ _ : PeerId, Peer}
    (member : entry ∈ peers.table.entries) : entry.2.address = entry.1 :=
  peers.addressed _ _ (List.mem_dlookup peers.table.nodupKeys member)

theorem tickPeer_step (pingTimeout : LocalDuration) (now : LocalTime) (peer : Peer) (rng : Rng)
    (outbox : Outbox) :
    ∃ ios, (tickPeer pingTimeout now peer rng outbox).2.2.queue = outbox.queue ++ ios ∧
      TickStep pingTimeout now peer.address peer (tickPeer pingTimeout now peer rng outbox).1 ios := by
  obtain ⟨p, state, latencies⟩ := peer
  cases state with
  | awaitingPong nonce since =>
    by_cases overdue : pingTimeout ≤ now - since
    · exact ⟨[.disconnect p (.peerTimeout "ping")], by simp [tickPeer, overdue],
        by simpa [tickPeer, overdue] using .timedOut overdue⟩
    · exact ⟨[], by simp [tickPeer, overdue],
        by simpa [tickPeer, overdue] using .awaiting (Nat.lt_of_not_le overdue)⟩
  | idle since =>
    by_cases elapsed : pingInterval ≤ now - since
    · exact ⟨[.send p (.ping rng.u64.1), .setTimer pingTimeout, .setTimer pingInterval],
        by simp [tickPeer, elapsed], by simpa [tickPeer, elapsed] using .due elapsed⟩
    · exact ⟨[], by simp [tickPeer, elapsed],
        by simpa [tickPeer, elapsed] using .resting (Nat.lt_of_not_le elapsed)⟩

theorem tickPeers_run (pingTimeout : LocalDuration) (now : LocalTime) (entries : Entries)
    (addressed : ∀ entry ∈ entries, entry.2.address = entry.1) (rng : Rng) (outbox : Outbox) :
    ∃ ios, (tickPeers pingTimeout now entries rng outbox).2.2.queue = outbox.queue ++ ios ∧
      TickRun pingTimeout now entries (tickPeers pingTimeout now entries rng outbox).1 ios := by
  induction entries generalizing rng outbox with
  | nil => exact ⟨[], by simp [tickPeers], .nil⟩
  | cons entry rest ih =>
    obtain ⟨p, peer⟩ := entry
    obtain ⟨ios, pushed, step⟩ := tickPeer_step pingTimeout now peer rng outbox
    have stored : peer.address = p := addressed ⟨p, peer⟩ (List.mem_cons_self _ _)
    obtain ⟨more, pushedRest, rest⟩ := ih (fun entry member => addressed entry
      (List.mem_cons_of_mem _ member)) (tickPeer pingTimeout now peer rng outbox).2.1
      (tickPeer pingTimeout now peer rng outbox).2.2
    refine ⟨ios ++ more, by simp [tickPeers, pushedRest, pushed], ?_⟩
    rw [stored] at step
    exact .cons step rest

/-- The effects a call pushed: during a call the outbox only grows at its back. -/
def pushed (before after : PingManager) : List Io :=
  after.outbox.queue.drop before.outbox.queue.length

theorem pushed_eq {before after : PingManager} {ios : List Io}
    (grown : after.outbox.queue = before.outbox.queue ++ ios) : pushed before after = ios := by
  simp [pushed, grown]

theorem PingManager.timerExpired_outbox (m : PingManager) (now : LocalTime) :
    (m.timerExpired now).outbox.queue = m.outbox.queue ++ pushed m (m.timerExpired now) := by
  obtain ⟨ios, grown, -⟩ := tickPeers_run m.pingTimeout now m.peers.table.entries
    (fun _ member => m.peers.entry_addressed member) m.rng m.outbox
  rwa [pushed_eq grown]

/-- A tick steps each record on its own and pushes exactly their effects, in the table's order. -/
theorem PingManager.timerExpired_run (m : PingManager) (now : LocalTime) :
    TickRun m.pingTimeout now m.peers.table.entries (m.timerExpired now).peers.table.entries
      (pushed m (m.timerExpired now)) := by
  obtain ⟨ios, grown, run⟩ := tickPeers_run m.pingTimeout now m.peers.table.entries
    (fun _ member => m.peers.entry_addressed member) m.rng m.outbox
  rwa [pushed_eq grown]

theorem PingManager.timerExpired_keys (m : PingManager) (now : LocalTime) :
    (m.timerExpired now).peers.table.keys = m.peers.table.keys :=
  (m.timerExpired_run now).keys

/-- A tick adds no record: a key without one still has none after it. -/
theorem PingManager.timerExpired_lookup_none (m : PingManager) (now : LocalTime) {p : PeerId}
    (found : m.peers.lookup p = none) : (m.timerExpired now).peers.lookup p = none :=
  List.dlookup_eq_none.mpr <| by
    rw [(m.timerExpired_run now).keys]
    exact List.dlookup_eq_none.mp found

/-- `timer_expired` end to end, for every table in every iteration order: the keys stay as
they are, and each record takes its own `TickStep` with nothing else enqueued. -/
theorem timerExpired_acts_per_record (m : PingManager) (now : LocalTime) :
    ∃ ios, (m.timerExpired now).outbox.queue = m.outbox.queue ++ ios ∧
      TickRun m.pingTimeout now m.peers.table.entries (m.timerExpired now).peers.table.entries ios :=
  ⟨_, m.timerExpired_outbox now, m.timerExpired_run now⟩

end NakamotoP2p.Fsm.PingMgr
