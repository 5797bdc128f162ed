import NakamotoP2p.Fsm.PingMgr.History

/-! Runs of the ping manager from `PingManager::new`: any sequence of events, ticks and drains
of the outbox, each call recorded in the history together with the effects it pushed. -/

namespace NakamotoP2p.Fsm.PingMgr

/-- What `received_event` pushes, per kind of event: the first `ping` on a negotiation, the
`pong` for a `ping` from a peer with a record, and nothing otherwise. -/
theorem PingManager.pushed_receivedEvent (m : PingManager) (now : LocalTime) (event : Event) :
    pushed m (m.receivedEvent now event) =
      match event with
      | .peerNegotiated addr .. => [.send addr (.ping m.rng.u64.1)]
      | .messageReceived sender (.ping nonce) =>
        if m.peers.containsKey sender then [.send sender (.pong nonce)] else []
      | _ => [] := by
  apply pushed_eq
  cases event with
  | messageReceived sender message =>
    cases message <;>
      simp [PingManager.receivedEvent, PingManager.receivedPing_eq, PingManager.receivedPong_outbox]
  | _ => simp [PingManager.receivedEvent]

/-- `received_event` pushes one ping on a negotiation, and no ping on any other event. -/
theorem PingManager.receivedEvent_pushed (m : PingManager) (now : LocalTime) (event : Event) :
    (∃ addr services height, event = .peerNegotiated addr services height ∧
        pushed m (m.receivedEvent now event) = [.send addr (.ping m.rng.u64.1)]) ∨
      (∀ addr services height, event ≠ .peerNegotiated addr services height) ∧
        ∀ io ∈ pushed m (m.receivedEvent now event), ∀ q nonce, io ≠ .send q (.ping nonce) := by
  rw [m.pushed_receivedEvent]
  cases event with
  | peerNegotiated addr services height => exact .inl ⟨addr, services, height, rfl, rfl⟩
  | messageReceived sender message =>
    refine .inr ⟨by simp, ?_⟩
    cases message with
    | ping nonce => simp only; split <;> simp
    | _ => simp
  | _ => exact .inr ⟨by simp, by simp⟩

/-- The flag `received_pong` returns for this event, which `received_event` drops. -/
def PingManager.pongAccepted (m : PingManager) (now : LocalTime) : Event → Bool
  | .messageReceived sender (.pong nonce) => (m.receivedPong now sender nonce).1
  | _ => false

/-- A manager with what was observed of its run: the calls and what each pushed, newest first,
and the effects `next` handed out, oldest first. -/
structure Traced where
  manager : PingManager
  history : List Obs
  handed : List Io

/-- The observations of one call at `now`: the call, then the effects it pushed, in order. -/
def record (now : LocalTime) (call : Obs) (ios : List Io) (h : List Obs) : List Obs :=
  (ios.map (.enqueued now)).reverse ++ call :: h

namespace Traced

def receivedEvent (t : Traced) (now : LocalTime) (event : Event) : Traced :=
  let after := t.manager.receivedEvent now event
  ⟨after, record now (.delivered now event (t.manager.pongAccepted now event))
    (pushed t.manager after) t.history, t.handed⟩

def timerExpired (t : Traced) (now : LocalTime) : Traced :=
  let after := t.manager.timerExpired now
  ⟨after, record now (.ticked now) (pushed t.manager after) t.history, t.handed⟩

def next (t : Traced) : Traced := ⟨t.manager.next.2, t.history, t.handed ++ t.manager.next.1.toList⟩

end Traced

/-- One step of a run: an event, a tick, or a drain of the outbox. A hash map fixes no order
for `values_mut`, so a tick may visit the records in any order. -/
inductive Step : Traced → Traced → Prop where
  | receivedEvent (now : LocalTime) (event : Event) : Step t (t.receivedEvent now event)
  | timerExpired (now : LocalTime) (peers : Peers)
      (relaid : peers.table.entries.Perm t.manager.peers.table.entries) :
      Step t (Traced.timerExpired ⟨{ t.manager with peers }, t.history, t.handed⟩ now)
  | next : Step t t.next

/-- A tick that visits the records in the table's own order. -/
theorem Step.tick (t : Traced) (now : LocalTime) : Step t (t.timerExpired now) :=
  .timerExpired now t.manager.peers (.refl _)

/-- The traced managers a run reaches from `PingManager::new`. -/
inductive Reachable : Traced → Prop where
  | new (pingTimeout : LocalDuration) (rng : Rng) : Reachable ⟨.new pingTimeout rng, [], []⟩
  | step (reach : Reachable t) (move : Step t t') : Reachable t'

theorem Peers.lookup_perm {peers peers' : Peers}
    (relaid : peers'.table.entries.Perm peers.table.entries) (p : PeerId) :
    peers'.lookup p = peers.lookup p :=
  AList.perm_lookup relaid

end NakamotoP2p.Fsm.PingMgr
