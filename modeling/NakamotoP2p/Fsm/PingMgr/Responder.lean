import NakamotoP2p.Fsm.PingMgr.Chronicle
import NakamotoP2p.Fsm.PingMgr.Delivery

namespace NakamotoP2p.Fsm.PingMgr

/-- A `pong` was pushed on the delivery of the `ping` it echoes, from a peer then in session. -/
def AnswersPing (o : Obs) (older : List Obs) : Prop :=
  ∀ now p nonce, o = .enqueued now (.send p (.pong nonce)) →
    ∃ rest, older = .delivered now (.messageReceived p (.ping nonce)) false :: rest ∧ connected p rest = true

/-- Right after a `ping` from a peer in session comes its `pong`; right after a `ping` from any
other peer comes the next call. -/
def FollowsPing (o : Obs) (older : List Obs) : Prop :=
  ∀ now p nonce accepted rest, older = .delivered now (.messageReceived p (.ping nonce)) accepted :: rest →
    (connected p rest = true → o = .enqueued now (.send p (.pong nonce))) ∧
      (connected p rest = false → o.effect = none)

/-- A `pong` pushed on a `ping` is that call's only effect: the next call stands on it. -/
def EndsPingCall (o : Obs) (older : List Obs) : Prop :=
  ∀ now p nonce accepted rest,
    older = .enqueued now (.send p (.pong nonce)) :: .delivered now (.messageReceived p (.ping nonce)) accepted :: rest →
      o.effect = none

/-- What every run's history says of the `pong`s the manager sends. -/
structure Responded (h : List Obs) : Prop where
  answers : Throughout AnswersPing h
  follows : Throughout FollowsPing h
  ends : Throughout EndsPingCall h
  /-- A run never stops between a `ping` from a peer in session and its `pong`. -/
  settled : ∀ now p nonce accepted rest,
    h = .delivered now (.messageReceived p (.ping nonce)) accepted :: rest → connected p rest = false

theorem Responded.new : Responded [] :=
  ⟨trivial, trivial, trivial, fun _ _ _ _ _ => by simp⟩

/-- A tick pushes no `pong`. -/
theorem TickRun.no_pong {pingTimeout : LocalDuration} {now : LocalTime} {entries entries' : Entries}
    {ios : List Io} (run : TickRun pingTimeout now entries entries' ios) :
    ∀ q nonce, Io.send q (.pong nonce) ∉ ios := by
  induction run with
  | nil => simp
  | cons step _ ih =>
    intro q nonce
    rw [List.mem_append, not_or]
    exact ⟨by cases step <;> simp, ih q nonce⟩

/-- Only a `ping` makes `received_event` push a `pong`. -/
theorem PingManager.pushed_no_pong (m : PingManager) (now : LocalTime) {event : Event}
    (notPing : ∀ p nonce, event ≠ .messageReceived p (.ping nonce)) :
    ∀ q nonce, Io.send q (.pong nonce) ∉ pushed m (m.receivedEvent now event) := by
  rw [m.pushed_receivedEvent]
  cases event with
  | messageReceived sender message =>
    cases message with
    | ping nonce => exact absurd rfl (notPing sender nonce)
    | _ => simp
  | _ => simp

section Record

variable {now : LocalTime} {call : Obs} {ios : List Io} {h : List Obs}

theorem answersPing_of_call (called : call.effect = none) (older : List Obs) : AnswersPing call older := by
  rintro _ _ _ rfl
  cases called

theorem endsPingCall_of_call (called : call.effect = none) (older : List Obs) : EndsPingCall call older :=
  fun _ _ _ _ _ _ => called

/-- An effect at the head of the block a call pushed is one of the block's. -/
theorem mem_of_enqueued_head (called : call.effect = none) {a : List Io} {t : LocalTime} {io : Io}
    {rest : List Obs} (head : (a.map (.enqueued now)).reverse ++ call :: h = .enqueued t io :: rest) : io ∈ a := by
  rcases List.eq_nil_or_concat a with rfl | ⟨a, x, rfl⟩
  · obtain ⟨rfl, -⟩ := List.cons.inj head
    cases called
  · simp only [List.concat_eq_append, List.map_append, List.map_cons, List.map_nil, List.reverse_append,
      List.reverse_singleton, List.singleton_append, List.cons_append, List.cons.injEq, Obs.enqueued.injEq] at head
    simp [head.1.2]

/-- A call that pushes nothing yet follows every `ping`, since none is left unanswered. -/
theorem Responded.call_follows (resp : Responded h) (called : call.effect = none) : FollowsPing call h :=
  fun _ p _ _ rest head => by
    have idle := resp.settled _ p _ _ rest head
    exact ⟨fun live => absurd (idle.symm.trans live) Bool.false_ne_true, fun _ => called⟩

/-- A call that is no `ping` and pushes no `pong` keeps the responder's record. -/
theorem Responded.quiet (resp : Responded h) (called : call.effect = none)
    (notPing : ∀ t p nonce accepted, call ≠ .delivered t (.messageReceived p (.ping nonce)) accepted)
    (noPong : ∀ q nonce, Io.send q (.pong nonce) ∉ ios) : Responded (record now call ios h) := by
  refine ⟨throughout_record (fun a io b split t q nonce same => ?_) (answersPing_of_call called h) resp.answers,
    throughout_record (fun a _ _ _ t q nonce accepted rest head => ?_) (resp.call_follows called) resp.follows,
    throughout_record (fun a _ b split t q nonce accepted rest head => ?_) (endsPingCall_of_call called h) resp.ends,
    fun t q nonce accepted rest head => ?_⟩
  · obtain ⟨-, rfl⟩ := Obs.enqueued.inj same
    exact (noPong q nonce (by simp [split])).elim
  · exact absurd (List.cons.inj (record_delivered head).2).1 (notPing t q nonce accepted)
  · exact (noPong q nonce (by simp [split, mem_of_enqueued_head called head])).elim
  · exact absurd (List.cons.inj (record_delivered head).2).1 (notPing t q nonce accepted)

/-- The delivery of a `ping` from `p`, with the `pong` pushed exactly when `p` is in session,
keeps the responder's record. -/
theorem Responded.pinged (resp : Responded h) {p : PeerId} {nonce : UInt64} :
    Responded (record now (.delivered now (.messageReceived p (.ping nonce)) false)
      (if connected p h then [.send p (.pong nonce)] else []) h) := by
  have fresh : FollowsPing (.delivered now (.messageReceived p (.ping nonce)) false) h :=
    resp.call_follows rfl
  cases live : connected p h with
  | false =>
    refine ⟨throughout_cons.mpr ⟨answersPing_of_call (by rfl) h, resp.answers⟩,
      throughout_cons.mpr ⟨fresh, resp.follows⟩, throughout_cons.mpr ⟨endsPingCall_of_call (by rfl) h, resp.ends⟩,
      fun t q n accepted rest head => ?_⟩
    simp only [List.cons.injEq, Obs.delivered.injEq, Event.messageReceived.injEq] at head
    obtain ⟨⟨-, ⟨rfl, -⟩, -⟩, rfl⟩ := head
    exact live
  | true =>
    simp only [record, if_true, List.map_cons, List.map_nil, List.reverse_singleton, List.singleton_append]
    refine ⟨throughout_cons.mpr ⟨(fun t q n same => ?_), throughout_cons.mpr ⟨answersPing_of_call (by rfl) h,
        resp.answers⟩⟩, throughout_cons.mpr ⟨(fun t q n accepted rest head => ?_),
        throughout_cons.mpr ⟨fresh, resp.follows⟩⟩, throughout_cons.mpr ⟨(fun _ _ _ _ _ head => by cases head),
        throughout_cons.mpr ⟨endsPingCall_of_call (by rfl) h, resp.ends⟩⟩, fun _ _ _ _ _ head => by cases head⟩
    · simp only [Obs.enqueued.injEq, Io.send.injEq, NetworkMessage.pong.injEq] at same
      obtain ⟨rfl, rfl, rfl⟩ := same
      exact ⟨h, rfl, live⟩
    · simp only [List.cons.injEq, Obs.delivered.injEq, Event.messageReceived.injEq,
        NetworkMessage.ping.injEq] at head
      obtain ⟨⟨rfl, ⟨rfl, rfl⟩, -⟩, rfl⟩ := head
      exact ⟨fun _ => rfl, fun idle => absurd (idle.symm.trans live) Bool.false_ne_true⟩

end Record

variable {m : PingManager} {h : List Obs} {now : LocalTime}

/-- `received_event` keeps the responder's record. -/
theorem Responded.receivedEvent (resp : Responded h) (tracked : ∀ q, Tracked m h q) (event : Event) :
    Responded (record now (.delivered now event (m.pongAccepted now event))
      (pushed m (m.receivedEvent now event)) h) := by
  by_cases ping : ∃ p nonce, event = .messageReceived p (.ping nonce)
  · obtain ⟨p, nonce, rfl⟩ := ping
    have keyed : m.peers.containsKey p = connected p h := (tracked p).keyed
    simpa only [m.pushed_receivedEvent, keyed] using resp.pinged
  · push_neg at ping
    exact resp.quiet rfl (fun t p nonce accepted same => ping p nonce (Obs.delivered.inj same).2.1)
      (m.pushed_no_pong now ping)

/-- `timer_expired` keeps the responder's record. -/
theorem Responded.timerExpired (resp : Responded h) :
    Responded (record now (.ticked now) (pushed m (m.timerExpired now)) h) := by
  exact resp.quiet rfl (fun _ _ _ _ same => by cases same) (m.timerExpired_run now).no_pong

theorem Reachable.responded {t : Traced} (reach : Reachable t) : Responded t.history := by
  induction reach with
  | new => exact Responded.new
  | @step t _ reach move ih =>
    cases move with
    | receivedEvent now event => exact ih.receivedEvent (fun q => reach.tracked q) event
    | timerExpired now peers relaid => exact ih.timerExpired
    | next => exact ih

/-- Each `pong` answers, in the same call, the `ping` it echoes from a peer in session; that
call pushes just the `pong`, and a `ping` from any other peer pushes nothing. -/
theorem pings_answered_in_session {t : Traced} (reach : Reachable t) :
    (∀ newer now p nonce older, t.history = newer ++ .enqueued now (.send p (.pong nonce)) :: older →
      ∃ rest, older = .delivered now (.messageReceived p (.ping nonce)) false :: rest ∧
        connected p rest = true) ∧
    (∀ newer now p nonce accepted older,
      t.history = newer ++ .delivered now (.messageReceived p (.ping nonce)) accepted :: older →
        pushedOn newer = if connected p older then [.enqueued now (.send p (.pong nonce))] else []) := by
  have resp := reach.responded
  refine ⟨fun newer now p nonce older split =>
    throughout_iff.mp resp.answers newer _ older split now p nonce rfl,
    fun newer now p nonce accepted older split => ?_⟩
  rcases List.eq_nil_or_concat newer with rfl | ⟨newer, o, rfl⟩
  · simp [pushedOn, resp.settled now p nonce accepted older split]
  rw [List.concat_eq_append, List.append_assoc, List.singleton_append] at split
  obtain ⟨answered, ignored⟩ := throughout_iff.mp resp.follows newer o _ split now p nonce accepted older rfl
  cases live : connected p older with
  | false => simp [pushedOn, ignored live]
  | true =>
    obtain rfl := answered live
    rcases List.eq_nil_or_concat newer with rfl | ⟨newer, o', rfl⟩
    · simp [pushedOn]
    · rw [List.concat_eq_append, List.append_assoc, List.singleton_append] at split
      have next := throughout_iff.mp resp.ends newer o' _ split now p nonce accepted older rfl
      simp [pushedOn, next]

/-- A `ping` from a negotiated peer is answered at once with its `pong`. -/
theorem ping_from_session_answered :
    let a : PeerId := .v4 0x7f000001 8333
    let t := (Traced.receivedEvent ⟨.new (.fromSecs 600) ⟨fun n => n.toUInt64⟩, [], []⟩ ⟨0⟩
      (.peerNegotiated a ⟨0⟩ 0)).receivedEvent ⟨10⟩ (.messageReceived a (.ping 7))
    Reachable t ∧ t.history = [] ++ .enqueued ⟨10⟩ (.send a (.pong 7)) :: t.history.tail ∧
      ∃ rest, t.history.tail = .delivered ⟨10⟩ (.messageReceived a (.ping 7)) false :: rest ∧
        connected a rest = true := by
  intro a t
  have reach : Reachable t := .step (.step (.new _ _) (.receivedEvent _ _)) (.receivedEvent _ _)
  have split : t.history = [] ++ .enqueued ⟨10⟩ (.send a (.pong 7)) :: t.history.tail := rfl
  exact ⟨reach, split, (pings_answered_in_session reach).1 [] ⟨10⟩ a 7 _ split⟩

end NakamotoP2p.Fsm.PingMgr
