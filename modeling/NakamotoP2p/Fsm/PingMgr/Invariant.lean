import NakamotoP2p.Fsm.PingMgr.Tracked

namespace NakamotoP2p.Fsm.PingMgr

variable {m : PingManager} {h : List Obs} {p : PeerId} {now : LocalTime}

theorem Obs.inert_enqueued {io : Io} (notPing : ∀ nonce, io ≠ .send p (.ping nonce)) :
    (Obs.enqueued now io).Inert p := by
  refine ⟨rfl, rfl, ?_, rfl⟩
  cases io with
  | send addr message =>
    cases message with
    | ping nonce =>
      have different : addr ≠ p := fun same => notPing nonce (by rw [same])
      simp [pingTo, different]
    | _ => rfl
  | _ => rfl

theorem Obs.inert_addressed {io : Io} (elsewhere : io.peer? ≠ some p) :
    (Obs.enqueued now io).Inert p :=
  Obs.inert_enqueued fun nonce same => elsewhere (by rw [same]; rfl)

theorem Obs.inert_delivered {event : Event} (accepted : Bool) (other : event.peer? ≠ some p) :
    (Obs.delivered now event accepted).Inert p ∧ (Obs.delivered now event accepted).pongFrom p = none := by
  cases event with
  | peerNegotiated addr =>
    have different : addr ≠ p := fun same => other (by rw [same]; rfl)
    simp [Inert, negotiates, disconnects, pingTo, acceptedFrom, pongFrom, different]
  | peerDisconnected addr =>
    have different : addr ≠ p := fun same => other (by rw [same]; rfl)
    simp [Inert, negotiates, disconnects, pingTo, acceptedFrom, pongFrom, different]
  | messageReceived sender message =>
    have different : sender ≠ p := fun same => other (by rw [same]; rfl)
    cases message <;> cases accepted <;>
      simp [Inert, negotiates, disconnects, pingTo, acceptedFrom, pongFrom, different]
  | _ => exact ⟨⟨rfl, rfl, rfl, rfl⟩, rfl⟩

theorem record_eq (call : Obs) (ios : List Io) (h : List Obs) :
    record now call ios h = ((ios.map (.enqueued now)).reverse ++ [call]) ++ h := by
  simp [record]

/-- Effects other than pings to `p`, and a call that moves nothing in `p`'s session. -/
theorem record_inert {call : Obs} {ios : List Io} (quiet : call.Inert p ∧ call.pongFrom p = none)
    (notPing : ∀ io ∈ ios, ∀ nonce, io ≠ .send p (.ping nonce)) :
    ∀ o ∈ (ios.map (.enqueued now)).reverse ++ [call], o.Inert p ∧ o.pongFrom p = none := by
  intro o member
  simp only [List.mem_append, List.mem_reverse, List.mem_map, List.mem_singleton] at member
  rcases member with ⟨io, mine, rfl⟩ | rfl
  · exact ⟨Obs.inert_enqueued (notPing io mine), rfl⟩
  · exact quiet

theorem notPing_of_elsewhere {ios : List Io} (elsewhere : ∀ io ∈ ios, io.peer? ≠ some p) :
    ∀ io ∈ ios, ∀ nonce, io ≠ .send p (.ping nonce) :=
  fun io member nonce same => elsewhere io member (by rw [same]; rfl)

theorem Tracked.of_lookup (tracked : Tracked m h p) (m' : PingManager)
    (same : m'.peers.lookup p = m.peers.lookup p) : Tracked m' h p := by
  simpa using (tracked.frame same (by simp) (by simp) : Tracked m' ([] ++ h) p)

theorem Tracked.frameRecord {m' : PingManager} {call : Obs} {ios : List Io}
    (tracked : Tracked m h p) (same : m'.peers.lookup p = m.peers.lookup p)
    (quiet : call.Inert p ∧ call.pongFrom p = none)
    (notPing : ∀ io ∈ ios, ∀ nonce, io ≠ .send p (.ping nonce)) :
    Tracked m' (record now call ios h) p := by
  rw [record_eq]
  have inert : ∀ o ∈ (ios.map (Obs.enqueued now)).reverse ++ [call], o.Inert p ∧ o.pongFrom p = none :=
    record_inert quiet notPing
  exact tracked.frame same (fun o member => (inert o member).1)
    fun _ _ _ _ _ o member => by simp [(inert o member).2]

/-- `received_pong` from `p` keeps `p` tracked: the awaited nonce is accepted, and any other
`pong` is recorded and changes nothing. -/
theorem Tracked.receivedPong (tracked : Tracked m h p) (nonce : UInt64) :
    Tracked (m.receivedPong now p nonce).2
      (.delivered now (.messageReceived p (.pong nonce)) (m.receivedPong now p nonce).1 :: h) p := by
  by_cases awaited : ∃ peer since, m.peers.lookup p = some peer ∧ peer.state = .awaitingPong nonce since
  · obtain ⟨peer, since, found, awaiting⟩ := awaited
    rw [m.receivedPong_of_awaiting now found awaiting]
    exact tracked.accepted found awaiting now
  · rw [m.receivedPong_of_not_awaiting now fun peer since found awaiting => awaited ⟨peer, since, found, awaiting⟩]
    refine (tracked.frame rfl (by simp [Obs.Inert, Obs.negotiates, Obs.disconnects, Obs.pingTo, Obs.acceptedFrom])
      fun peer nonce' since found awaiting o member => ?_ :
        Tracked m ([.delivered now (.messageReceived p (.pong nonce)) false] ++ h) p)
    obtain rfl := List.mem_singleton.mp member
    have different : nonce ≠ nonce' := fun same => awaited ⟨peer, since, found, same ▸ awaiting⟩
    simpa [Obs.pongFrom] using different

/-- `received_event` keeps every peer tracked. -/
theorem Tracked.receivedEvent (tracked : Tracked m h p) (event : Event) :
    Tracked (m.receivedEvent now event)
      (record now (.delivered now event (m.pongAccepted now event))
        (pushed m (m.receivedEvent now event)) h) p := by
  by_cases own : event.peer? = some p
  · rw [m.pushed_receivedEvent]
    cases event with
    | peerNegotiated addr services height =>
      obtain rfl : addr = p := by simpa [Event.peer?] using own
      exact tracked.negotiated now services height
    | peerDisconnected addr reason =>
      obtain rfl : addr = p := by simpa [Event.peer?] using own
      exact tracked.disconnected now reason
    | messageReceived sender message =>
      obtain rfl : sender = p := by simpa [Event.peer?] using own
      cases message with
      | ping nonce =>
        exact tracked.frameRecord (by simp [PingManager.receivedEvent, PingManager.receivedPing_eq])
          ⟨⟨rfl, rfl, rfl, rfl⟩, rfl⟩ (by simp only; split <;> simp)
      | pong nonce =>
        simpa [record, PingManager.receivedEvent, PingManager.pongAccepted] using tracked.receivedPong nonce
      | other command => exact tracked.frameRecord rfl ⟨⟨rfl, rfl, rfl, rfl⟩, rfl⟩ (by simp)
    | _ => simp [Event.peer?] at own
  · obtain ⟨ios, grown, addressed⟩ := m.receivedEvent_outbox now event
    rw [pushed_eq grown]
    refine tracked.frameRecord (m.receivedEvent_lookup_other now event own)
      (Obs.inert_delivered _ own) (notPing_of_elsewhere fun io member pinged => ?_)
    obtain ⟨q, addressedTo, eventPeer⟩ := addressed io member
    rw [pinged, Option.some.injEq] at addressedTo
    exact own (addressedTo ▸ eventPeer)

/-- `timer_expired` keeps every peer tracked, whatever order its table is in. -/
theorem Tracked.timerExpired (tracked : Tracked m h p) :
    Tracked (m.timerExpired now) (record now (.ticked now) (pushed m (m.timerExpired now)) h) p := by
  have run := m.timerExpired_run now
  generalize pushed m (m.timerExpired now) = ios at run ⊢
  cases found : m.peers.lookup p with
  | none =>
    exact tracked.frameRecord ((m.timerExpired_lookup_none now found).trans found.symm) ⟨⟨rfl, rfl, rfl, rfl⟩, rfl⟩
      (notPing_of_elsewhere (run.absent (List.dlookup_eq_none.mp found)))
  | some peer =>
    obtain ⟨peer', pre, mine, post, found', step, split, elsewhere⟩ :=
      run.lookup m.peers.table.nodupKeys found
    have after : (m.timerExpired now).peers.lookup p = some peer' := found'
    have others : ∀ io ∈ pre ++ post, ∀ nonce, io ≠ .send p (.ping nonce) :=
      notPing_of_elsewhere elsewhere
    have kept (unchanged : peer' = peer) (quiet : ∀ io ∈ mine, ∀ nonce, io ≠ .send p (.ping nonce)) :
        Tracked (m.timerExpired now) (record now (.ticked now) ios h) p := by
      refine tracked.frameRecord (by rw [after, found, unchanged]) ⟨⟨rfl, rfl, rfl, rfl⟩, rfl⟩ ?_
      intro io member
      rw [split] at member
      simp only [List.mem_append] at member
      rcases member with (early | mine') | late
      · exact others io (List.mem_append_left _ early)
      · exact quiet io mine'
      · exact others io (List.mem_append_right _ late)
    cases step with
    | timedOut => exact kept rfl (by simp)
    | awaiting => exact kept rfl (by simp)
    | resting => exact kept rfl (by simp)
    | @due since latencies nonce elapsed =>
      have shape : record now (.ticked now) ios h =
          ((post.map (.enqueued now)).reverse ++
            [.enqueued now (.setTimer pingInterval), .enqueued now (.setTimer m.pingTimeout)]) ++
          .enqueued now (.send p (.ping nonce)) ::
            ((pre.map (.enqueued now)).reverse ++ [.ticked now] ++ h) := by
        simp [record, split]
      rw [shape]
      refine tracked.pingedOnTick found after ?_ ?_
      · intro o member
        simp only [List.mem_append, List.mem_reverse, List.mem_map, List.mem_cons,
          List.mem_singleton, List.not_mem_nil, or_false] at member
        rcases member with ⟨io, mine', rfl⟩ | rfl | rfl
        · exact ⟨Obs.inert_enqueued (others io (List.mem_append_right _ mine')), rfl⟩
        all_goals exact ⟨Obs.inert_enqueued (by simp), rfl⟩
      · intro o member
        simp only [List.mem_append, List.mem_reverse, List.mem_map, List.mem_singleton] at member
        rcases member with ⟨io, mine', rfl⟩ | rfl
        · exact Obs.inert_enqueued (others io (List.mem_append_left _ mine'))
        · exact ⟨rfl, rfl, rfl, rfl⟩

/-- Along every run, the table and the history agree on every peer. -/
theorem Reachable.tracked {t : Traced} (reach : Reachable t) (p : PeerId) :
    Tracked t.manager t.history p := by
  induction reach with
  | new pingTimeout rng => exact Tracked.new pingTimeout rng p
  | @step t _ _ move ih =>
    cases move with
    | receivedEvent now event => exact ih.receivedEvent event
    | timerExpired now peers relaid =>
      exact (ih.of_lookup { t.manager with peers } (Peers.lookup_perm relaid p)).timerExpired
    | next => exact ih.of_lookup _ rfl

end NakamotoP2p.Fsm.PingMgr
