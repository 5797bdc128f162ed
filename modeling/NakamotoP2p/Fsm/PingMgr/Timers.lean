import NakamotoP2p.Fsm.PingMgr.Chronicle
import NakamotoP2p.Fsm.PingMgr.Detection

namespace NakamotoP2p.Fsm.PingMgr

/-- The effects of a tick in order: each record adds nothing, a disconnect, or a ping followed
at once by its `ping_timeout` timer and its `PING_INTERVAL` timer. -/
inductive TickEffects (pingTimeout : LocalDuration) : List Io → Prop where
  | nil : TickEffects pingTimeout []
  | disconnect (q : PeerId) (reason : DisconnectReason) {rest : List Io} :
      TickEffects pingTimeout rest → TickEffects pingTimeout (.disconnect q reason :: rest)
  | ping (q : PeerId) (nonce : UInt64) {rest : List Io} : TickEffects pingTimeout rest →
      TickEffects pingTimeout (.send q (.ping nonce) :: .setTimer pingTimeout :: .setTimer pingInterval :: rest)

section Grammar

variable {pingTimeout : LocalDuration} {ios : List Io}

theorem TickRun.effects {now : LocalTime} {entries entries' : Entries}
    (run : TickRun pingTimeout now entries entries' ios) : TickEffects pingTimeout ios := by
  induction run with
  | nil => exact .nil
  | cons step _ ih =>
    cases step with
    | timedOut => exact .disconnect _ _ ih
    | awaiting => exact ih
    | due => exact .ping _ _ ih
    | resting => exact ih

/-- In a tick's effects a ping is followed at once by its two timers. -/
theorem TickEffects.ping_armed (effects : TickEffects pingTimeout ios) :
    ∀ {a b : List Io} {q : PeerId} {nonce : UInt64}, ios = a ++ .send q (.ping nonce) :: b →
      ∃ rest, b = .setTimer pingTimeout :: .setTimer pingInterval :: rest := by
  induction effects with
  | nil => intro a b q nonce split; simp at split
  | disconnect q' reason _ ih =>
    intro a b q nonce split
    rcases a with _ | ⟨x, a⟩
    · simp at split
    · exact ih (List.cons.inj split).2
  | ping q' nonce' _ ih =>
    intro a b q nonce split
    rcases a with _ | ⟨x, _ | ⟨y, _ | ⟨z, a⟩⟩⟩
    · exact ⟨_, (List.cons.inj split).2.symm⟩
    · simp at split
    · simp at split
    · exact ih (List.cons.inj (List.cons.inj (List.cons.inj split).2).2).2

/-- In a tick's effects a timer comes right after a ping, or right after a ping and its
`ping_timeout` timer. -/
theorem TickEffects.timer_armed (effects : TickEffects pingTimeout ios) :
    ∀ {a b : List Io} {d : LocalDuration}, ios = a ++ .setTimer d :: b →
      (d = pingTimeout ∧ ∃ a' q nonce, a = a' ++ [.send q (.ping nonce)]) ∨
        (d = pingInterval ∧ ∃ a' q nonce, a = a' ++ [.send q (.ping nonce), .setTimer pingTimeout]) := by
  induction effects with
  | nil => intro a b d split; simp at split
  | disconnect q' reason _ ih =>
    intro a b d split
    rcases a with _ | ⟨x, a⟩
    · simp at split
    · rcases ih (List.cons.inj split).2 with ⟨rfl, a', q, nonce, rfl⟩ | ⟨rfl, a', q, nonce, rfl⟩
      · exact .inl ⟨rfl, x :: a', q, nonce, rfl⟩
      · exact .inr ⟨rfl, x :: a', q, nonce, rfl⟩
  | ping q' nonce' _ ih =>
    intro a b d split
    rcases a with _ | ⟨x, _ | ⟨y, _ | ⟨z, a⟩⟩⟩
    · simp at split
    · simp only [List.singleton_append, List.cons.injEq, Io.setTimer.injEq] at split
      obtain ⟨rfl, rfl, -⟩ := split
      exact .inl ⟨rfl, [], q', nonce', rfl⟩
    · simp only [List.cons_append, List.singleton_append, List.cons.injEq, Io.setTimer.injEq] at split
      obtain ⟨rfl, rfl, rfl, -⟩ := split
      exact .inr ⟨rfl, [], q', nonce', rfl⟩
    · simp only [List.cons_append, List.cons.injEq] at split
      obtain ⟨rfl, rfl, rfl, rest⟩ := split
      rcases ih rest with ⟨rfl, a', q, nonce, rfl⟩ | ⟨rfl, a', q, nonce, rfl⟩
      · exact .inl ⟨rfl, _ :: _ :: _ :: a', q, nonce, rfl⟩
      · exact .inr ⟨rfl, _ :: _ :: _ :: a', q, nonce, rfl⟩

end Grammar

/-- The observations older than an effect of the tick at `now`: the effects that tick pushed
before it, then the tick itself. -/
def OnTick (now : LocalTime) (older : List Obs) : Prop :=
  ∃ pre rest, older = pre ++ .ticked now :: rest ∧ ∀ o ∈ pre, ∃ io, o = .enqueued now io

theorem not_onTick_delivered {now t : LocalTime} {event : Event} {accepted : Bool} {h : List Obs} :
    ¬OnTick now (.delivered t event accepted :: h) := by
  rintro ⟨_ | ⟨o, pre⟩, rest, split, effects⟩
  · cases split
  · obtain ⟨io, same⟩ := effects o (List.mem_cons_self _ _)
    rw [← (List.cons.inj split).1] at same
    cases same

/-- A ping was pushed by its peer's negotiation, delivered just before it, or by the tick at
the same reading. -/
def PingCall (o : Obs) (older : List Obs) : Prop :=
  ∀ sent q nonce, o = .enqueued sent (.send q (.ping nonce)) →
    (∃ services height rest, older = .delivered sent (.peerNegotiated q services height) false :: rest) ∨
      OnTick sent older

/-- A timer was armed by a tick right after a ping it sent: the `ping_timeout` one at once, the
`PING_INTERVAL` one after that. -/
def TimerCaused (pingTimeout : LocalDuration) (o : Obs) (older : List Obs) : Prop :=
  ∀ now d, o = .enqueued now (.setTimer d) →
    (d = pingTimeout ∧ ∃ q nonce rest, older = .enqueued now (.send q (.ping nonce)) :: rest ∧ OnTick now rest) ∨
      (d = pingInterval ∧ ∃ q nonce rest,
        older = .enqueued now (.setTimer pingTimeout) :: .enqueued now (.send q (.ping nonce)) :: rest ∧
          OnTick now rest)

/-- Right after a tick's ping comes its `ping_timeout` timer, and right after that its
`PING_INTERVAL` timer; right after a negotiation's ping comes the next call. -/
def FollowsPingCall (pingTimeout : LocalDuration) (o : Obs) (older : List Obs) : Prop :=
  (∀ sent q nonce rest, older = .enqueued sent (.send q (.ping nonce)) :: rest → OnTick sent rest →
    o = .enqueued sent (.setTimer pingTimeout)) ∧
  (∀ sent q nonce rest,
    older = .enqueued sent (.setTimer pingTimeout) :: .enqueued sent (.send q (.ping nonce)) :: rest →
      OnTick sent rest → o = .enqueued sent (.setTimer pingInterval)) ∧
  ∀ sent q nonce services height rest,
    older = .enqueued sent (.send q (.ping nonce)) :: .delivered sent (.peerNegotiated q services height) false :: rest →
      ∀ now io, o ≠ .enqueued now io

/-- What every run's history says of the pings and timers the manager pushes. -/
structure Armed (pingTimeout : LocalDuration) (h : List Obs) : Prop where
  calls : Throughout PingCall h
  timers : Throughout (TimerCaused pingTimeout) h
  follows : Throughout (FollowsPingCall pingTimeout) h
  /-- A run never stops inside a tick between a ping and its timers. -/
  settled : ∀ sent q nonce rest, (h = .enqueued sent (.send q (.ping nonce)) :: rest ∨
    h = .enqueued sent (.setTimer pingTimeout) :: .enqueued sent (.send q (.ping nonce)) :: rest) →
      ¬OnTick sent rest

section Record

variable {pingTimeout : LocalDuration} {now : LocalTime} {h : List Obs}

theorem Armed.new : Armed pingTimeout [] :=
  ⟨trivial, trivial, trivial, fun _ _ _ _ split => by rcases split with split | split <;> cases split⟩

/-- A call that is no effect follows every ping, as the run never stops between a tick's ping
and its timers. -/
theorem Armed.call_follows (armed : Armed pingTimeout h) {call : Obs} (notEffect : ∀ t io, call ≠ .enqueued t io) :
    FollowsPingCall pingTimeout call h :=
  ⟨fun _ _ _ _ head onTick => absurd onTick (armed.settled _ _ _ _ (.inl head)),
    fun _ _ _ _ head onTick => absurd onTick (armed.settled _ _ _ _ (.inr head)),
    fun _ _ _ _ _ _ _ t io same => notEffect t io same⟩

/-- The effects older than an effect of a call, and the call itself, seen from the effect. -/
theorem record_enqueued {a : List Io} {call : Obs} (notEffect : ∀ t io, call ≠ .enqueued t io)
    {sent : LocalTime} {io : Io} {rest : List Obs}
    (head : (a.map (.enqueued now)).reverse ++ call :: h = .enqueued sent io :: rest) :
    ∃ a', a = a' ++ [io] ∧ sent = now ∧ rest = (a'.map (.enqueued now)).reverse ++ call :: h := by
  rcases List.eq_nil_or_concat a with rfl | ⟨a', x, rfl⟩
  · exact absurd (List.cons.inj head).1 (notEffect sent io)
  · simp only [List.concat_eq_append, List.map_append, List.map_cons, List.map_nil, List.reverse_append, List.reverse_cons,
      List.reverse_nil, List.nil_append, List.singleton_append, List.cons_append, List.cons.injEq,
      Obs.enqueued.injEq] at head
    obtain ⟨⟨rfl, rfl⟩, rfl⟩ := head
    exact ⟨a', List.concat_eq_append _ _, rfl, rfl⟩

/-- The effects a tick pushed before one of its effects, then the tick, are on that tick. -/
theorem onTick_record (a : List Io) : OnTick now ((a.map (.enqueued now)).reverse ++ .ticked now :: h) :=
  ⟨_, h, rfl, fun o member => by
    obtain ⟨io, -, rfl⟩ := List.mem_map.mp (List.mem_reverse.mp member)
    exact ⟨io, rfl⟩⟩

/-- A delivery that pushes at most one effect, no timer, and a ping only on its peer's
negotiation, keeps the record. -/
theorem Armed.delivered (armed : Armed pingTimeout h) {event : Event} {accepted : Bool} {ios : List Io}
    (short : ios.length ≤ 1) (noTimer : ∀ d, .setTimer d ∉ ios)
    (negotiation : ∀ q nonce, .send q (.ping nonce) ∈ ios →
      (∃ services height, event = .peerNegotiated q services height) ∧ accepted = false) :
    Armed pingTimeout (record now (.delivered now event accepted) ios h) := by
  have first : ∀ {a io b}, ios = a ++ io :: b → a = [] := fun split => by
    have := congrArg List.length split
    simp only [List.length_append, List.length_cons] at this
    exact List.eq_nil_of_length_eq_zero (by omega)
  have delivery : ∀ t io, Obs.delivered now event accepted ≠ .enqueued t io := fun _ _ same => by cases same
  refine ⟨throughout_record ?_ (fun _ _ _ same => by cases same) armed.calls,
    throughout_record ?_ (fun _ _ same => by cases same) armed.timers,
    throughout_record ?_ (armed.call_follows delivery) armed.follows, ?_⟩
  · intro a io b split sent q nonce same
    obtain rfl := first split
    obtain ⟨rfl, rfl⟩ := Obs.enqueued.inj same
    obtain ⟨⟨services, height, rfl⟩, rfl⟩ := negotiation q nonce (by simp [split])
    exact .inl ⟨services, height, h, rfl⟩
  · intro a io b split t d same
    obtain ⟨-, rfl⟩ := Obs.enqueued.inj same
    exact absurd (by simp [split]) (noTimer d)
  · intro a io b split
    obtain rfl := first split
    refine ⟨fun _ _ _ _ head => ?_, fun _ _ _ _ head => ?_, fun _ _ _ _ _ _ head => ?_⟩ <;> cases head
  · intro sent q nonce rest head
    rcases ios with _ | ⟨io, _ | ⟨_, _⟩⟩
    · rcases head with head | head <;> cases head
    · rcases head with head | head
      · obtain ⟨same, rfl⟩ := List.cons.inj head
        obtain ⟨rfl, rfl⟩ := Obs.enqueued.inj same
        exact not_onTick_delivered
      · exact absurd (by simp [(Obs.enqueued.inj (List.cons.inj head).1).2]) (noTimer pingTimeout)
    · simp at short

/-- A tick keeps the record: its pings come with their timers, and its timers with their pings. -/
theorem Armed.ticked (armed : Armed pingTimeout h) {ios : List Io} (effects : TickEffects pingTimeout ios) :
    Armed pingTimeout (record now (.ticked now) ios h) := by
  have tick : ∀ t io, Obs.ticked now ≠ .enqueued t io := fun _ _ same => by cases same
  refine ⟨throughout_record ?_ (fun _ _ _ same => by cases same) armed.calls,
    throughout_record ?_ (fun _ _ same => by cases same) armed.timers,
    throughout_record ?_ (armed.call_follows tick) armed.follows, ?_⟩
  · intro a io b split sent q nonce same
    obtain ⟨rfl, -⟩ := Obs.enqueued.inj same
    exact .inr (onTick_record a)
  · intro a io b split t d same
    obtain ⟨rfl, rfl⟩ := Obs.enqueued.inj same
    rcases effects.timer_armed split with ⟨rfl, a', q, nonce, rfl⟩ | ⟨rfl, a', q, nonce, rfl⟩
    · exact .inl ⟨rfl, q, nonce, (a'.map (.enqueued now)).reverse ++ .ticked now :: h, by simp, onTick_record a'⟩
    · exact .inr ⟨rfl, q, nonce, (a'.map (.enqueued now)).reverse ++ .ticked now :: h, by simp, onTick_record a'⟩
  · intro a io b split
    refine ⟨fun sent q nonce rest head _ => ?_, fun sent q nonce rest head _ => ?_,
      fun sent q nonce _ _ rest head => ?_⟩
    · obtain ⟨a', rfl, rfl, -⟩ := record_enqueued tick head
      obtain ⟨_, more⟩ := effects.ping_armed
        (show ios = a' ++ .send q (.ping nonce) :: io :: b by simp [split])
      rw [(List.cons.inj more).1]
    · obtain ⟨a', rfl, rfl, later⟩ := record_enqueued tick head
      obtain ⟨a'', rfl, -, -⟩ := record_enqueued tick later.symm
      obtain ⟨_, more⟩ := effects.ping_armed
        (show ios = a'' ++ .send q (.ping nonce) :: .setTimer pingTimeout :: io :: b by simp [split])
      rw [(List.cons.inj (List.cons.inj more).2).1]
    · obtain ⟨a', rfl, rfl, later⟩ := record_enqueued tick head
      rcases List.eq_nil_or_concat a' with rfl | ⟨_, _, rfl⟩ <;> simp at later
  · intro sent q nonce rest head onTick
    rcases head with head | head
    · obtain ⟨a, rfl, -, -⟩ := record_enqueued tick head
      obtain ⟨_, more⟩ := effects.ping_armed (show a ++ [.send q (.ping nonce)] = a ++ .send q (.ping nonce) :: [] from rfl)
      cases more
    · obtain ⟨a, rfl, rfl, later⟩ := record_enqueued tick head
      obtain ⟨a', rfl, -, -⟩ := record_enqueued tick later.symm
      obtain ⟨_, more⟩ := effects.ping_armed
        (show a' ++ [.send q (.ping nonce)] ++ [.setTimer pingTimeout] =
          a' ++ .send q (.ping nonce) :: [.setTimer pingTimeout] by simp)
      simp at more

end Record

/-- What `received_event` pushes: at most one effect, no timer, and a ping only on its peer's
negotiation. -/
theorem PingManager.receivedEvent_calm (m : PingManager) (now : LocalTime) (event : Event) :
    (pushed m (m.receivedEvent now event)).length ≤ 1 ∧ (∀ d, .setTimer d ∉ pushed m (m.receivedEvent now event)) ∧
      ∀ q nonce, .send q (.ping nonce) ∈ pushed m (m.receivedEvent now event) →
        (∃ services height, event = .peerNegotiated q services height) ∧ m.pongAccepted now event = false := by
  rw [m.pushed_receivedEvent]
  cases event with
  | peerNegotiated addr services height =>
    refine ⟨by simp, by simp, fun q nonce member => ?_⟩
    obtain ⟨rfl, -⟩ : q = addr ∧ _ := by simpa using member
    exact ⟨⟨services, height, rfl⟩, rfl⟩
  | messageReceived sender message =>
    cases message with
    | ping nonce => simp only; split <;> simp
    | _ => simp
  | _ => simp

theorem Reachable.armed {t : Traced} (reach : Reachable t) : Armed t.manager.pingTimeout t.history := by
  induction reach with
  | new => exact Armed.new
  | @step t _ _ move ih =>
    cases move with
    | receivedEvent now event =>
      show Armed (t.manager.receivedEvent now event).pingTimeout _
      rw [t.manager.receivedEvent_pingTimeout now event]
      obtain ⟨short, noTimer, negotiation⟩ := t.manager.receivedEvent_calm now event
      exact ih.delivered short noTimer negotiation
    | timerExpired now peers relaid =>
      exact ih.ticked (PingManager.timerExpired_run { t.manager with peers } now).effects
    | next => exact ih

/-- What stands right before an observation of a history, if anything does. -/
theorem split_last {newer older h : List Obs} {o : Obs} (split : h = newer ++ o :: older) :
    newer = [] ∨ ∃ newer' o', newer = newer' ++ [o'] ∧ h = newer' ++ o' :: o :: older := by
  rcases List.eq_nil_or_concat newer with rfl | ⟨newer', o', rfl⟩
  · exact .inl rfl
  · exact .inr ⟨newer', o', List.concat_eq_append _ _, by simp [split]⟩

/-- The call that pushed a ping, read off an armed history: its peer's negotiation, with
nothing pushed right after the ping, or a tick, with the ping's two timers right after it. -/
theorem Armed.ping_call {pingTimeout : LocalDuration} {h : List Obs} (armed : Armed pingTimeout h)
    {newer older : List Obs} {sent : LocalTime} {q : PeerId} {nonce : UInt64}
    (split : h = newer ++ .enqueued sent (.send q (.ping nonce)) :: older) :
    ((∃ services height rest, older = .delivered sent (.peerNegotiated q services height) false :: rest) ∧
        ∀ o ∈ newer.getLast?, ∀ now io, o ≠ .enqueued now io) ∨
      (OnTick sent older ∧ ∃ newer', newer = newer' ++
        [.enqueued sent (.setTimer pingInterval), .enqueued sent (.setTimer pingTimeout)]) := by
  rcases throughout_iff.mp armed.calls newer _ older split sent q nonce rfl with negotiated | onTick
  · refine .inl ⟨negotiated, fun o last now io same => ?_⟩
    obtain ⟨services, height, rest, rfl⟩ := negotiated
    rcases split_last split with rfl | ⟨newer, o', rfl, split'⟩
    · cases last
    · obtain rfl : o' = o := by simpa using last
      exact (throughout_iff.mp armed.follows newer o' _ split').2.2 sent q nonce services height rest rfl now io same
  · refine .inr ⟨onTick, ?_⟩
    rcases split_last split with rfl | ⟨newer, o₁, rfl, split₁⟩
    · exact absurd onTick (armed.settled sent q nonce older (.inl split))
    obtain rfl := (throughout_iff.mp armed.follows newer o₁ _ split₁).1 sent q nonce older rfl onTick
    rcases split_last split₁ with rfl | ⟨newer, o₂, rfl, split₂⟩
    · exact absurd onTick (armed.settled sent q nonce older (.inr split₁))
    obtain rfl := (throughout_iff.mp armed.follows newer o₂ _ split₂).2.1 sent q nonce older rfl onTick
    exact ⟨newer, by simp⟩

/-- Only a tick's ping arms timers, a `ping_timeout` one and then a `PING_INTERVAL` one; a
negotiation's ping arms none, so its record has no timer of its own. -/
theorem timers_armed_only_for_tick_pings {t : Traced} (reach : Reachable t) :
    (∀ newer now d older, t.history = newer ++ .enqueued now (.setTimer d) :: older →
      (d = t.manager.pingTimeout ∧ ∃ q nonce rest,
          older = .enqueued now (.send q (.ping nonce)) :: rest ∧ OnTick now rest) ∨
        (d = pingInterval ∧ ∃ q nonce rest,
          older = .enqueued now (.setTimer t.manager.pingTimeout) :: .enqueued now (.send q (.ping nonce)) :: rest ∧
            OnTick now rest)) ∧
    ∀ p peer nonce since, t.manager.peers.lookup p = some peer → peer.state = .awaitingPong nonce since →
      ∃ newer older, t.history = newer ++ .enqueued since (.send p (.ping nonce)) :: older ∧
        (∀ o ∈ newer, o.pingTo p = none) ∧
        (((∃ services height rest, older = .delivered since (.peerNegotiated p services height) false :: rest) ∧
            ∀ o ∈ newer.getLast?, ∀ now io, o ≠ .enqueued now io) ∨
          (OnTick since older ∧ ∃ newer', newer = newer' ++
            [.enqueued since (.setTimer pingInterval), .enqueued since (.setTimer t.manager.pingTimeout)])) := by
  have armed := reach.armed
  refine ⟨fun newer now d older split => throughout_iff.mp armed.timers newer _ older split now d rfl,
    fun p peer nonce since found awaiting => ?_⟩
  obtain ⟨last, -, -⟩ := (reach.tracked p).awaiting peer nonce since found awaiting
  obtain ⟨older, split, quiet⟩ := split_at_lastPing (lastPing_of_lifetime last)
  refine ⟨_, older, split, fun o member => ?_, armed.ping_call split⟩
  simpa using List.findSome?_eq_none_iff.mp quiet o member

/-- After a negotiation, an answer and the tick two minutes later, the record awaits the
tick's ping, and the tick armed its two timers right after it. -/
theorem tick_ping_arms_timers :
    let a : PeerId := .v4 0x7f000001 8333
    let answered := (Traced.receivedEvent ⟨.new (.fromSecs 600) ⟨fun n => n.toUInt64⟩, [], []⟩ ⟨0⟩
      (.peerNegotiated a ⟨0⟩ 0)).receivedEvent ⟨50⟩ (.messageReceived a (.pong 1))
    let t := answered.timerExpired ⟨120050⟩
    Reachable t ∧ t.manager.peers.lookup a = some ⟨a, .awaitingPong 2 ⟨120050⟩, [⟨50⟩]⟩ ∧
      ∃ newer older, t.history = newer ++ .enqueued ⟨120050⟩ (.send a (.ping 2)) :: older ∧
        (∀ o ∈ newer, o.pingTo a = none) ∧
        (((∃ services height rest, older = .delivered ⟨120050⟩ (.peerNegotiated a services height) false :: rest) ∧
            ∀ o ∈ newer.getLast?, ∀ now io, o ≠ .enqueued now io) ∨
          (OnTick ⟨120050⟩ older ∧ ∃ newer', newer = newer' ++
            [.enqueued ⟨120050⟩ (.setTimer pingInterval), .enqueued ⟨120050⟩ (.setTimer t.manager.pingTimeout)])) := by
  intro a answered t
  have reach : Reachable t :=
    .step (.step (.step (.new _ _) (.receivedEvent _ _)) (.receivedEvent _ _)) (.tick answered ⟨120050⟩)
  have found : t.manager.peers.lookup a = some ⟨a, .awaitingPong 2 ⟨120050⟩, [⟨50⟩]⟩ := by decide
  exact ⟨reach, found, (timers_armed_only_for_tick_pings reach).2 a _ 2 ⟨120050⟩ found rfl⟩

/-- A tick's ping was caused by an accepted `pong` to its peer's previous ping, at least
`PING_INTERVAL` before it. -/
theorem Chronicle.tick_ping_answered {h newer rest : List Obs} (chron : Chronicle h) {now : LocalTime}
    {q : PeerId} {nonce : UInt64} (split : h = newer ++ .enqueued now (.send q (.ping nonce)) :: rest)
    (onTick : OnTick now rest) :
    ∃ answered previous, (∃ o ∈ rest, o.acceptedFrom q = some (answered, previous)) ∧
      pingInterval ≤ now - answered := by
  rcases throughout_iff.mp chron.caused newer _ rest split q now nonce (by simp [Obs.pingTo]) with
    ⟨_, _, _, rfl⟩ | ⟨answered, previous, ⟨o, since, accepted⟩, -, elapsed⟩
  · exact absurd onTick not_onTick_delivered
  · exact ⟨answered, previous, ⟨o, List.takeWhile_subset _ since, accepted⟩, elapsed⟩

/-- Every timer comes at least `PING_INTERVAL` after an accepted `pong`: with no `pong` ever
accepted, the manager arms no timer at all. -/
theorem timers_follow_accepted_pongs {t : Traced} (reach : Reachable t) :
    (∀ newer now d older, t.history = newer ++ .enqueued now (.setTimer d) :: older →
      ∃ q answered nonce, (∃ o ∈ older, o.acceptedFrom q = some (answered, nonce)) ∧
        pingInterval ≤ now - answered) ∧
    ((∀ o ∈ t.history, ∀ q, o.acceptedFrom q = none) → ∀ o ∈ t.history, ∀ now d, o ≠ .enqueued now (.setTimer d)) := by
  have timed : ∀ newer now d older, t.history = newer ++ .enqueued now (.setTimer d) :: older →
      ∃ q answered nonce, (∃ o ∈ older, o.acceptedFrom q = some (answered, nonce)) ∧
        pingInterval ≤ now - answered := fun newer now d older split => by
    obtain ⟨q, nonce, pre, rest, rfl, onTick⟩ : ∃ q nonce pre rest,
        older = pre ++ .enqueued now (.send q (.ping nonce)) :: rest ∧ OnTick now rest := by
      rcases throughout_iff.mp reach.armed.timers newer _ older split now d rfl with
        ⟨-, q, nonce, rest, rfl, onTick⟩ | ⟨-, q, nonce, rest, rfl, onTick⟩
      exacts [⟨q, nonce, [], rest, rfl, onTick⟩, ⟨q, nonce, [_], rest, rfl, onTick⟩]
    obtain ⟨answered, previous, ⟨o, member, accepted⟩, elapsed⟩ := reach.chronicle.tick_ping_answered
      (show t.history = (newer ++ .enqueued now (.setTimer d) :: pre) ++ .enqueued now (.send q (.ping nonce)) :: rest
        by simp [split]) onTick
    exact ⟨q, answered, previous, ⟨o, by simp [member], accepted⟩, elapsed⟩
  refine ⟨timed, fun unanswered o member now d armedHere => ?_⟩
  obtain ⟨newer, older, split⟩ := List.append_of_mem member
  obtain ⟨q, answered, nonce, ⟨o', earlier, accepted⟩, -⟩ := timed newer now d older (armedHere ▸ split)
  rw [unanswered o' (split ▸ List.mem_append_right _ (List.mem_cons_of_mem _ earlier)) q] at accepted
  cases accepted

/-- The tick two minutes after an answer arms its interval timer after that answer. -/
theorem interval_timer_after_answer :
    let a : PeerId := .v4 0x7f000001 8333
    let replied := (Traced.receivedEvent ⟨.new (.fromSecs 600) ⟨fun n => n.toUInt64⟩, [], []⟩ ⟨0⟩
      (.peerNegotiated a ⟨0⟩ 0)).receivedEvent ⟨50⟩ (.messageReceived a (.pong 1))
    let t := replied.timerExpired ⟨120050⟩
    let older : List Obs := .enqueued ⟨120050⟩ (.setTimer (.fromSecs 600)) ::
      .enqueued ⟨120050⟩ (.send a (.ping 2)) :: .ticked ⟨120050⟩ :: replied.history
    Reachable t ∧ t.history = [] ++ .enqueued ⟨120050⟩ (.setTimer pingInterval) :: older ∧
      ∃ q answered nonce, (∃ o ∈ older, o.acceptedFrom q = some (answered, nonce)) ∧
        pingInterval ≤ (⟨120050⟩ : LocalTime) - answered := by
  intro a replied t older
  have reach : Reachable t :=
    .step (.step (.step (.new _ _) (.receivedEvent _ _)) (.receivedEvent _ _)) (.tick replied ⟨120050⟩)
  have ios : pushed replied.manager t.manager =
      [.send a (.ping 2), .setTimer (.fromSecs 600), .setTimer pingInterval] := by decide
  have split : t.history = [] ++ .enqueued ⟨120050⟩ (.setTimer pingInterval) :: older := by
    show record _ _ (pushed replied.manager t.manager) _ = _
    rw [ios]
    rfl
  exact ⟨reach, split, (timers_follow_accepted_pongs reach).1 [] _ _ _ split⟩

end NakamotoP2p.Fsm.PingMgr
