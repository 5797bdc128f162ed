import NakamotoP2p.Fsm.PingMgr.Run

namespace NakamotoP2p.Fsm.PingMgr

/-- The effect an observation records being pushed. -/
def Obs.effect : Obs → Option Io
  | .enqueued _ io => some io
  | _ => none

@[simp] theorem Obs.effect_enqueued (now : LocalTime) (io : Io) : (Obs.enqueued now io).effect = some io := rfl

/-- The effects standing on a call, oldest first, where `newer` is the history above it: what
that call pushed, up to the next call. -/
def pushedOn (newer : List Obs) : List Obs := newer.reverse.takeWhile fun o => o.effect.isSome

/-- Every effect pushed so far, oldest first. -/
def pushedEffects (h : List Obs) : List Io := (h.filterMap Obs.effect).reverse

theorem pushedEffects_record (now : LocalTime) (call : Obs) (ios : List Io) (h : List Obs)
    (called : call.effect = none) : pushedEffects (record now call ios h) = pushedEffects h ++ ios := by
  have effects : (ios.map (Obs.enqueued now)).filterMap Obs.effect = ios := by
    induction ios <;> simp_all [Obs.effect]
  simp only [pushedEffects, record, List.filterMap_append, List.filterMap_reverse, List.filterMap_cons,
    called, effects, List.reverse_append, List.reverse_reverse]

/-- Every effect pushed so far is one `next` handed out, in the order handed out, followed by
the queue. -/
def Queued (t : Traced) : Prop := pushedEffects t.history = t.handed ++ t.manager.outbox.queue

theorem Step.queued {t t' : Traced} (move : Step t t') (queued : Queued t) : Queued t' := by
  cases move with
  | receivedEvent now event =>
    obtain ⟨ios, grown, -⟩ := t.manager.receivedEvent_outbox now event
    simp only [Queued, Traced.receivedEvent]
    rw [pushedEffects_record now (.delivered now event (t.manager.pongAccepted now event)) _ _ rfl,
      pushed_eq grown, grown, queued, List.append_assoc]
  | timerExpired now peers relaid =>
    simp only [Queued, Traced.timerExpired]
    rw [pushedEffects_record now (.ticked now) _ _ rfl, PingManager.timerExpired_outbox, queued, List.append_assoc]
  | next =>
    obtain ⟨⟨peers, pingTimeout, rng, ⟨queue⟩⟩, history, handed⟩ := t
    cases queue with
    | nil => simpa [Queued, Traced.next, PingManager.next, Outbox.next] using queued
    | cons io rest => simpa [Queued, Traced.next, PingManager.next, Outbox.next] using queued

/-- Along every run the effects pushed are those `next` handed out, in order, then the queue,
and `next` hands out the oldest queued one: none is lost, repeated or reordered. -/
theorem outbox_delivers_in_order {t : Traced} (reach : Reachable t) :
    pushedEffects t.history = t.handed ++ t.manager.outbox.queue ∧
      t.manager.next.1 = t.manager.outbox.queue.head? ∧
      t.manager.next.2.outbox.queue = t.manager.outbox.queue.tail := by
  have queued : Queued t := by
    induction reach with
    | new => rfl
    | step _ move ih => exact move.queued ih
  refine ⟨queued, ?_⟩
  obtain ⟨⟨peers, pingTimeout, rng, ⟨queue⟩⟩, history, handed⟩ := t
  cases queue <;> exact ⟨rfl, rfl⟩

/-- After a negotiation and one drain, the negotiation's ping is what was handed out, and
nothing is left queued. -/
theorem negotiation_ping_handed_out :
    let a : PeerId := .v4 0x7f000001 8333
    let t := (Traced.receivedEvent ⟨.new (.fromSecs 600) ⟨fun n => n.toUInt64⟩, [], []⟩ ⟨0⟩
      (.peerNegotiated a ⟨0⟩ 0)).next
    Reachable t ∧ pushedEffects t.history = t.handed ++ t.manager.outbox.queue ∧
      t.handed = [.send a (.ping 1)] ∧ t.manager.outbox.queue = [] := by
  intro a t
  have reach : Reachable t := .step (.step (.new _ _) (.receivedEvent _ _)) .next
  exact ⟨reach, (outbox_delivers_in_order reach).1, rfl, rfl⟩

end NakamotoP2p.Fsm.PingMgr
