import NakamotoP2p.Fsm.PingMgr.Invariant

namespace NakamotoP2p.Fsm.PingMgr

/-- The state a ping to `p` or an accepted `pong` from `p` puts `p`'s record in. -/
def Obs.stateOf (p : PeerId) (o : Obs) : Option State :=
  match o.pingTo p, o.acceptedFrom p with
  | some (sent, nonce), _ => some (.awaitingPong nonce sent)
  | none, some (answered, _) => some (.idle answered)
  | none, none => none

/-- The record the history says `p` has. -/
def expectedRecord (p : PeerId) (h : List Obs) : Option Peer :=
  if connected p h then
    ((lifetime p h).findSome? (Obs.stateOf p)).map fun state =>
      ⟨p, state, (samples p (lifetime p h)).take maxRecordedLatencies⟩
  else none

variable {p : PeerId}

/-- Past no ping, a record is idle since the newest accepted `pong`, if there is one. -/
theorem findSome_stateOf_silent {xs : List Obs} (silent : ∀ o ∈ xs, o.pingTo p = none) :
    xs.findSome? (Obs.stateOf p) = (xs.findSome? (Obs.acceptedFrom p)).map fun answer => .idle answer.1 := by
  induction xs with
  | nil => rfl
  | cons o xs ih =>
    have quiet := silent o (List.mem_cons_self _ _)
    have later := ih fun o member => silent o (List.mem_cons_of_mem _ member)
    cases accepted : o.acceptedFrom p <;> simp [List.findSome?_cons, Obs.stateOf, quiet, accepted, later]

/-- With nothing accepted since the newest ping, the record awaits that ping. -/
theorem findSome_stateOf_awaiting {xs rest : List Obs} {sent : LocalTime} {nonce : UInt64}
    (silent : ∀ o ∈ xs, o.pingTo p = none) (unanswered : xs.findSome? (Obs.acceptedFrom p) = none) :
    (xs ++ .enqueued sent (.send p (.ping nonce)) :: rest).findSome? (Obs.stateOf p) =
      some (.awaitingPong nonce sent) := by
  rw [List.findSome?_append, findSome_stateOf_silent silent, unanswered]
  simp [List.findSome?_cons, Obs.stateOf, Obs.pingTo]

/-- A newest turn that is a ping leaves no accepted `pong` after the newest ping. -/
theorem unanswered_of_turn {xs rest : List Obs} {nonce : UInt64} (silent : ∀ o ∈ xs, o.pingTo p = none)
    (turn : (turns p (xs ++ rest)).head? = some (.ping nonce)) :
    xs.findSome? (Obs.acceptedFrom p) = none := by
  induction xs with
  | nil => rfl
  | cons o xs ih =>
    have quiet := silent o (List.mem_cons_self _ _)
    cases accepted : o.acceptedFrom p with
    | none =>
      rw [List.findSome?_cons, accepted]
      refine ih (fun o member => silent o (List.mem_cons_of_mem _ member)) ?_
      simpa [turns, Obs.turn, quiet, accepted] using turn
    | some answer => simp [turns, Obs.turn, quiet, accepted] at turn

variable {m : PingManager} {h : List Obs}

/-- A tracked record's state is the one its session's newest ping or accepted `pong` set. -/
theorem Tracked.stateOf (tracked : Tracked m h p) {peer : Peer} (found : m.peers.lookup p = some peer) :
    (lifetime p h).findSome? (Obs.stateOf p) = some peer.state := by
  obtain ⟨address, state, latencies⟩ := peer
  have whole := List.takeWhile_append_dropWhile (fun o => !o.negotiates p) h
  cases state with
  | awaitingPong nonce since =>
    obtain ⟨last, -, turn⟩ := tracked.awaiting _ nonce since found rfl
    obtain ⟨older, split, quiet⟩ := split_at_lastPing last
    have silent : ∀ o ∈ sinceLastPing p (lifetime p h), o.pingTo p = none :=
      List.findSome?_eq_none_iff.mp quiet
    rw [← whole, ← lifetime, split, List.append_assoc, List.cons_append] at turn
    rw [split]
    exact findSome_stateOf_awaiting silent (unanswered_of_turn silent turn)
  | idle since =>
    obtain ⟨sent, nonce, last, newest⟩ := tracked.idle _ since found rfl
    obtain ⟨older, split, quiet⟩ := split_at_lastPing last
    have silent : ∀ o ∈ sinceLastPing p (lifetime p h), o.pingTo p = none :=
      List.findSome?_eq_none_iff.mp quiet
    have since_eq : sinceLastPing p h = sinceLastPing p (lifetime p h) := by
      conv_lhs => rw [← whole]
      exact sinceLastPing_append_of_some last _
    rw [since_eq] at newest
    rw [split, List.findSome?_append, findSome_stateOf_silent silent, newest]
    rfl

/-- On a tracked peer the table holds exactly the record the history says it should. -/
theorem Tracked.lookup_eq (tracked : Tracked m h p) : m.peers.lookup p = expectedRecord p h := by
  unfold expectedRecord
  cases found : m.peers.lookup p with
  | none =>
    have absent : connected p h = false := by simpa [found] using tracked.keyed.symm
    simp [absent]
  | some peer =>
    have live : connected p h = true := by simpa [found] using tracked.keyed.symm
    obtain ⟨address, state, latencies⟩ := peer
    obtain rfl : address = p := m.peers.addressed p _ found
    have sampled : latencies = (samples address (lifetime address h)).take 64 := (tracked.sampled _ found).1
    rw [if_pos live, tracked.stateOf found, sampled]
    rfl

/-- Along every run the peer table is exactly the one an observer writes down from the
history. -/
theorem peer_table_is_observed {t : Traced} (reach : Reachable t) (p : PeerId) :
    t.manager.peers.lookup p = expectedRecord p t.history :=
  (reach.tracked p).lookup_eq

/-- After a negotiation and one round trip of 50 ms, the observer expects an idle record with
that one sample, and the manager holds it. -/
theorem answered_record_observed :
    let a : PeerId := .v4 0x7f000001 8333
    let t := (Traced.receivedEvent ⟨.new (.fromSecs 600) ⟨fun n => n.toUInt64⟩, [], []⟩ ⟨0⟩
      (.peerNegotiated a ⟨0⟩ 0)).receivedEvent ⟨50⟩ (.messageReceived a (.pong 1))
    Reachable t ∧ t.manager.peers.lookup a = expectedRecord a t.history ∧
      expectedRecord a t.history = some ⟨a, .idle ⟨50⟩, [⟨50⟩]⟩ := by
  intro a t
  have reach : Reachable t := .step (.step (.new _ _) (.receivedEvent _ _)) (.receivedEvent _ _)
  exact ⟨reach, peer_table_is_observed reach a, by decide⟩

end NakamotoP2p.Fsm.PingMgr
