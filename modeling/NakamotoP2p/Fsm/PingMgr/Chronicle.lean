import NakamotoP2p.Fsm.PingMgr.Invariant

namespace NakamotoP2p.Fsm.PingMgr

/-- An accepted `pong` echoed the newest ping of its peer's session, and no `pong` had echoed
that ping before. -/
def EchoesLastPing (o : Obs) (older : List Obs) : Prop :=
  ∀ p answered nonce, o.acceptedFrom p = some (answered, nonce) →
    (∃ sent, lastPing p (lifetime p older) = some (sent, nonce)) ∧
      ∀ o' ∈ sinceLastPing p older, o'.pongFrom p ≠ some nonce

/-- A ping was sent right on its peer's negotiation, or on a tick once the interval had passed
since an accepted `pong` to the ping before it. -/
def PingCaused (o : Obs) (older : List Obs) : Prop :=
  ∀ p sent nonce, o.pingTo p = some (sent, nonce) →
    (∃ services height rest, older = .delivered sent (.peerNegotiated p services height) false :: rest) ∨
      ∃ answered previous, (∃ o' ∈ sinceLastPing p older, o'.acceptedFrom p = some (answered, previous)) ∧
        (lastPing p older).map Prod.snd = some previous ∧ pingInterval ≤ sent - answered

/-- The observation right after a negotiation is that negotiation's ping. -/
def FollowsNegotiation (o : Obs) (older : List Obs) : Prop :=
  ∀ now p services height accepted rest,
    older = .delivered now (.peerNegotiated p services height) accepted :: rest →
    ∃ nonce, o = .enqueued now (.send p (.ping nonce))

/-- What every run's history satisfies. -/
structure Chronicle (h : List Obs) : Prop where
  echoes : Throughout EchoesLastPing h
  caused : Throughout PingCaused h
  follows : Throughout FollowsNegotiation h
  /-- A run never stops between a negotiation and its ping. -/
  settled : ∀ now p services height accepted rest,
    h ≠ .delivered now (.peerNegotiated p services height) accepted :: rest

section Record

variable {now : LocalTime} {call : Obs} {ios : List Io} {h : List Obs}

theorem split_enqueued {newer older : List Obs} {o : Obs}
    (split : (ios.map (.enqueued now)).reverse = newer ++ o :: older) :
    ∃ a io b, ios = a ++ io :: b ∧ o = .enqueued now io ∧ older = (a.map (.enqueued now)).reverse := by
  rw [List.reverse_eq_append_iff, List.reverse_cons, List.append_assoc, List.singleton_append] at split
  obtain ⟨a, rest, rfl, first, second⟩ := List.map_eq_append_iff.mp split
  obtain ⟨io, b, rfl, same, -⟩ := List.map_eq_cons_iff.mp second
  exact ⟨a, io, b, rfl, same.symm, by rw [first, List.reverse_reverse]⟩

/-- A property of a recorded call follows from the property of the call and of each effect,
against the effects pushed before it. -/
theorem throughout_record {P : Obs → List Obs → Prop}
    (enqueued : ∀ a io b, ios = a ++ io :: b →
      P (.enqueued now io) ((a.map (.enqueued now)).reverse ++ call :: h))
    (called : P call h) (old : Throughout P h) : Throughout P (record now call ios h) :=
  throughout_append (fun _ _ _ split => by
    obtain ⟨a, io, b, rfl, rfl, rfl⟩ := split_enqueued split
    exact enqueued a io b rfl) ⟨called, old⟩

/-- A delivery at the head of a recorded call is the call itself. -/
theorem record_delivered {a : List Io} {older : List Obs} {t : LocalTime} {event : Event}
    {accepted : Bool} {rest : List Obs}
    (head : (a.map (.enqueued now)).reverse ++ older = .delivered t event accepted :: rest) :
    a = [] ∧ older = .delivered t event accepted :: rest := by
  rcases List.eq_nil_or_concat a with rfl | ⟨_, _, rfl⟩
  · exact ⟨rfl, head⟩
  · simp at head

/-- A call that is not a negotiation keeps every negotiation followed by its ping. -/
theorem Chronicle.quiet (chron : Chronicle h)
    (notNegotiation : ∀ t p services height accepted, call ≠ .delivered t (.peerNegotiated p services height) accepted) :
    Throughout FollowsNegotiation (record now call ios h) ∧
      ∀ t p services height accepted rest,
        record now call ios h ≠ .delivered t (.peerNegotiated p services height) accepted :: rest := by
  refine ⟨throughout_record (fun a _ _ _ t p services height accepted rest head => ?_)
    (fun t p services height accepted rest head => absurd head (chron.settled t p services height accepted rest))
    chron.follows, fun t p services height accepted rest head => ?_⟩
  · exact absurd (List.cons.inj (record_delivered head).2).1 (notNegotiation t p services height accepted)
  · exact absurd (List.cons.inj (record_delivered head).2).1 (notNegotiation t p services height accepted)

theorem echoes_record (called : EchoesLastPing call h) (old : Throughout EchoesLastPing h) :
    Throughout EchoesLastPing (record now call ios h) :=
  throughout_record (fun _ _ _ _ _ _ _ accepted => by cases accepted) called old

end Record

theorem Chronicle.new : Chronicle [] :=
  ⟨trivial, trivial, trivial, fun _ _ _ _ _ _ => by simp⟩

/-- The pings a tick sends to `p`: none, or exactly one, to an idle record whose interval has
passed. -/
theorem TickRun.pings_to {pingTimeout : LocalDuration} {now : LocalTime} {entries entries' : Entries}
    {ios : List Io} (run : TickRun pingTimeout now entries entries' ios) (nodup : entries.keys.Nodup)
    (p : PeerId) :
    ios.filterMap (fun io => (Obs.enqueued now io).pingTo p) = [] ∨
      ∃ since latencies nonce, entries.dlookup p = some ⟨p, .idle since, latencies⟩ ∧
        pingInterval ≤ now - since ∧
        ios.filterMap (fun io => (Obs.enqueued now io).pingTo p) = [(now, nonce)] := by
  have quiet : ∀ xs : List Io, (∀ io ∈ xs, io.peer? ≠ some p) →
      xs.filterMap (fun io => (Obs.enqueued now io).pingTo p) = [] := fun xs elsewhere =>
    List.filterMap_eq_nil_iff.mpr fun io member => (Obs.inert_addressed (elsewhere io member)).2.2.1
  cases found : entries.dlookup p with
  | none => exact .inl (quiet ios (run.absent (List.dlookup_eq_none.mp found)))
  | some peer =>
    obtain ⟨_, pre, mine, post, -, step, rfl, elsewhere⟩ := run.lookup nodup found
    have before := quiet pre fun io member => elsewhere io (List.mem_append_left _ member)
    have after := quiet post fun io member => elsewhere io (List.mem_append_right _ member)
    rw [List.filterMap_append, List.filterMap_append, before, after]
    cases step with
    | @due since latencies nonce elapsed =>
      exact .inr ⟨since, latencies, nonce, rfl, elapsed, by simp [Obs.pingTo]⟩
    | _ => exact .inl (by simp [Obs.pingTo])

variable {m : PingManager} {h : List Obs} {now : LocalTime}

/-- The `pong` a delivery accepted was awaited, so it echoed the newest ping. -/
theorem echoes_delivered (tracked : ∀ q, Tracked m h q) (event : Event) :
    EchoesLastPing (.delivered now event (m.pongAccepted now event)) h := by
  intro p answered nonce accepted
  obtain ⟨rfl, rfl, flag⟩ := Obs.delivered.inj (Obs.eq_of_acceptedFrom accepted)
  obtain ⟨peer, since, found, awaiting⟩ := m.awaiting_of_receivedPong now flag
  obtain ⟨last, unechoed, -⟩ := (tracked p).awaiting peer nonce since found awaiting
  exact ⟨⟨since, last⟩, unechoed⟩

/-- `received_event` keeps the chronicle. -/
theorem Chronicle.receivedEvent (chron : Chronicle h) (tracked : ∀ q, Tracked m h q) (event : Event) :
    Chronicle (record now (.delivered now event (m.pongAccepted now event))
      (pushed m (m.receivedEvent now event)) h) := by
  have echoes : Throughout EchoesLastPing (record now (.delivered now event (m.pongAccepted now event))
      (pushed m (m.receivedEvent now event)) h) :=
    echoes_record (echoes_delivered tracked event) chron.echoes
  rcases m.receivedEvent_pushed now event with ⟨addr, services, height, rfl, pinged⟩ | ⟨other, noPing⟩
  · simp only [pinged, record, List.map_cons, List.map_nil, List.reverse_singleton,
      List.singleton_append] at echoes ⊢
    refine ⟨echoes, throughout_cons.mpr ⟨(fun p sent nonce ping => ?_),
        throughout_cons.mpr ⟨(fun _ _ _ ping => by cases ping), chron.caused⟩⟩,
      throughout_cons.mpr ⟨(fun t p _ _ _ rest head => ?_), throughout_cons.mpr
        ⟨(fun t p _ _ _ rest head => absurd head (chron.settled t p _ _ _ rest)), chron.follows⟩⟩,
      fun _ _ _ _ _ _ => by simp⟩
    · obtain ⟨rfl, same⟩ := Obs.enqueued.inj (Obs.eq_of_pingTo ping)
      obtain ⟨rfl, -⟩ : addr = p ∧ _ := by simpa using same
      exact .inl ⟨services, height, h, rfl⟩
    · obtain ⟨rfl, same, -⟩ := Obs.delivered.inj (List.cons.inj head).1
      obtain ⟨rfl, -, -⟩ := Event.peerNegotiated.inj same
      exact ⟨_, rfl⟩
  · have notNegotiation (t p services height accepted) : Obs.delivered now event (m.pongAccepted now event) ≠
        .delivered t (.peerNegotiated p services height) accepted :=
      fun same => other p services height (Obs.delivered.inj same).2.1
    refine ⟨echoes, throughout_record (fun a io b split p sent nonce ping => ?_)
      (fun _ _ _ ping => by cases ping) chron.caused, (chron.quiet notNegotiation).1,
      (chron.quiet notNegotiation).2⟩
    obtain ⟨-, rfl⟩ := Obs.enqueued.inj (Obs.eq_of_pingTo ping)
    exact absurd rfl (noPing _ (by rw [split]; simp) p nonce)

/-- A ping a tick sends came an interval or more after the accepted `pong` to the ping
before it. -/
theorem caused_on_tick (tracked : ∀ q, Tracked m h q) {ios a b : List Io} {io : Io}
    (run : TickRun m.pingTimeout now m.peers.table.entries (m.timerExpired now).peers.table.entries ios)
    (split : ios = a ++ io :: b) :
    PingCaused (.enqueued now io) ((a.map (.enqueued now)).reverse ++ .ticked now :: h) := by
  intro p sent nonce ping
  obtain ⟨rfl, rfl⟩ := Obs.enqueued.inj (Obs.eq_of_pingTo ping)
  rcases run.pings_to m.peers.table.nodupKeys p with none | ⟨since, _, _, found, elapsed, once⟩
  · simp [split, Obs.pingTo] at none
  have quiet : a.filterMap (fun io => (Obs.enqueued now io).pingTo p) = [] := by
    have counted := congrArg List.length once
    simp only [split, List.filterMap_append, List.filterMap_cons, ping, List.length_append,
      List.length_cons, List.length_nil] at counted
    exact List.length_eq_zero.mp (by omega)
  have inert : ∀ o ∈ (a.map (Obs.enqueued now)).reverse ++ [Obs.ticked now], o.Inert p := by
    intro o member
    simp only [List.mem_append, List.mem_reverse, List.mem_map, List.mem_singleton] at member
    rcases member with ⟨x, mine, rfl⟩ | rfl
    · exact ⟨rfl, rfl, List.filterMap_eq_nil_iff.mp quiet x mine, rfl⟩
    · exact ⟨rfl, rfl, rfl, rfl⟩
  obtain ⟨_, previous, last, newest⟩ := (tracked p).idle _ since found rfl
  obtain ⟨o, member, accepted⟩ := List.exists_of_findSome?_eq_some newest
  rw [← List.singleton_append, ← List.append_assoc, sinceLastPing_append_inert h inert,
    lastPing_append_inert h inert, lastPing_of_lifetime last]
  exact .inr ⟨since, previous, ⟨o, List.mem_append_right _ member, accepted⟩, rfl, elapsed⟩

/-- `timer_expired` keeps the chronicle. -/
theorem Chronicle.timerExpired (chron : Chronicle h) (tracked : ∀ q, Tracked m h q) :
    Chronicle (record now (.ticked now) (pushed m (m.timerExpired now)) h) := by
  have run := m.timerExpired_run now
  have notNegotiation (t p services height accepted) :
      Obs.ticked now ≠ .delivered t (.peerNegotiated p services height) accepted := by
    simp
  exact ⟨echoes_record (fun _ _ _ accepted => by cases accepted) chron.echoes,
    throughout_record (fun _ _ _ split => caused_on_tick tracked run split)
      (fun _ _ _ ping => by cases ping) chron.caused, (chron.quiet notNegotiation).1,
    (chron.quiet notNegotiation).2⟩

/-- Every run's history satisfies the chronicle. -/
theorem Reachable.chronicle {t : Traced} (reach : Reachable t) : Chronicle t.history := by
  induction reach with
  | new => exact Chronicle.new
  | @step t _ reach move ih =>
    cases move with
    | receivedEvent now event => exact ih.receivedEvent (fun q => reach.tracked q) event
    | timerExpired now peers relaid =>
      exact ih.timerExpired fun q =>
        (reach.tracked q).of_lookup { t.manager with peers } (Peers.lookup_perm relaid q)
    | next => exact ih

end NakamotoP2p.Fsm.PingMgr
