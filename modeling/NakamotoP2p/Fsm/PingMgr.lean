import NakamotoP2p.Fsm.Output
import Mathlib.Data.List.AList

/-! Ping manager: detects dead peer connections and responds to peer `ping` messages
(BIP 0031). Each call is given the clock reading `now` it takes. -/

namespace NakamotoP2p.Fsm.PingMgr

/-- Time interval to wait between sent pings. -/
def pingInterval : LocalDuration := .fromMins 2

/-- Maximum number of latencies recorded per peer. -/
def maxRecordedLatencies : Nat := 64

inductive State where
  | awaitingPong (nonce : UInt64) (since : LocalTime)
  | idle (since : LocalTime)
  deriving DecidableEq, Repr

/-- The reading at which a record entered its state. -/
def State.since : State → LocalTime
  | awaitingPong _ since => since
  | idle since => since

structure Peer where
  address : PeerId
  state : State
  /-- Observed round-trip latencies for this peer, newest first. -/
  latencies : List LocalDuration
  deriving DecidableEq, Repr

namespace Peer

/-- Calculate the average latency of this peer. -/
def latency (peer : Peer) : Option LocalDuration :=
  (LocalDuration.sum peer.latencies).bind fun sum => sum.div peer.latencies.length.toUInt32

/-- `push_front` then `truncate`: the newest sample first, at most 64 kept. -/
def recordLatency (peer : Peer) (sample : LocalDuration) : Peer :=
  { peer with latencies := (sample :: peer.latencies).take maxRecordedLatencies }

end Peer

/-- The entries of the `peers` map, in the order `values_mut` visits them. -/
abbrev Entries := List (Σ _ : PeerId, Peer)

private theorem lookup_replace_self (s : AList fun _ : PeerId => Peer) (p : PeerId) (peer : Peer) :
    (s.replace p peer).lookup p = (s.lookup p).map fun _ => peer := by
  obtain ⟨l, nodup⟩ := s
  simp only [AList.replace, AList.lookup]
  induction l with
  | nil => rfl
  | cons entry rest ih =>
    obtain ⟨key, stored⟩ := entry
    by_cases same : p = key
    · subst same; simp [List.kreplace, List.lookmap_cons_some]
    · simpa [List.kreplace, List.lookmap_cons_none, same, List.dlookup_cons_ne] using ih nodup.tail

private theorem lookup_replace_ne (s : AList fun _ : PeerId => Peer) {p q : PeerId} (peer : Peer)
    (other : q ≠ p) : (s.replace p peer).lookup q = s.lookup q := by
  obtain ⟨l, nodup⟩ := s
  simp only [AList.replace, AList.lookup]
  induction l with
  | nil => rfl
  | cons entry rest ih =>
    obtain ⟨key, stored⟩ := entry
    by_cases same : p = key
    · subst same; simp [List.kreplace, List.lookmap_cons_some, List.dlookup_cons_ne, other]
    · by_cases found : q = key
      · subst found; simp [List.kreplace, List.lookmap_cons_none, same]
      · simpa [List.kreplace, List.lookmap_cons_none, same, List.dlookup_cons_ne, found] using
          ih nodup.tail

/-- The `peers` map. Its keys are distinct, its entry order is the order in which `values_mut`
visits the records (a hash map fixes none), and every record is stored under its own `address`. -/
structure Peers where
  table : AList fun _ : PeerId => Peer
  addressed : ∀ p peer, table.lookup p = some peer → peer.address = p

namespace Peers

def lookup (peers : Peers) (p : PeerId) : Option Peer := peers.table.lookup p

/-- `HashMap::contains_key`. -/
def containsKey (peers : Peers) (p : PeerId) : Bool := (peers.lookup p).isSome

def empty : Peers := ⟨∅, fun _ _ found => by simp at found⟩

/-- `HashMap::insert`, replacing any record stored under `p`. -/
def insert (peers : Peers) (p : PeerId) (peer : Peer) (stored : peer.address = p) : Peers :=
  ⟨peers.table.insert p peer, fun q kept found => by
    by_cases same : q = p
    · subst same
      rw [AList.lookup_insert] at found
      cases found
      exact stored
    · rw [AList.lookup_insert_ne same] at found
      exact peers.addressed q kept found⟩

/-- `HashMap::remove`; removing an absent address changes nothing. -/
def remove (peers : Peers) (p : PeerId) : Peers :=
  ⟨peers.table.erase p, fun q kept found => by
    by_cases same : q = p
    · subst same; simp [AList.lookup_erase] at found
    · rw [AList.lookup_erase_ne same] at found
      exact peers.addressed q kept found⟩

/-- A record taken with `get_mut p` and changed in place. -/
def update (peers : Peers) (p : PeerId) (peer : Peer) (stored : peer.address = p) : Peers :=
  ⟨peers.table.replace p peer, fun q kept found => by
    by_cases same : q = p
    · subst same
      rw [lookup_replace_self] at found
      obtain ⟨_, _, rfl⟩ := Option.map_eq_some'.mp found
      exact stored
    · rw [lookup_replace_ne _ _ same] at found
      exact peers.addressed q kept found⟩

theorem ext {a b : Peers} (same : a.table = b.table) : a = b := by
  cases a; cases b; cases same; rfl

@[simp] theorem lookup_empty (p : PeerId) : empty.lookup p = none := rfl

@[simp] theorem lookup_insert (peers : Peers) (p q : PeerId) (peer : Peer) (stored : peer.address = p) :
    (peers.insert p peer stored).lookup q = if q = p then some peer else peers.lookup q := by
  by_cases same : q = p
  · subst same; simp [insert, lookup, AList.lookup_insert]
  · simp [insert, lookup, AList.lookup_insert_ne same, same]

@[simp] theorem lookup_remove (peers : Peers) (p q : PeerId) :
    (peers.remove p).lookup q = if q = p then none else peers.lookup q := by
  by_cases same : q = p
  · subst same; simp [remove, lookup, AList.lookup_erase]
  · simp [remove, lookup, AList.lookup_erase_ne same, same]

@[simp] theorem lookup_update (peers : Peers) (p q : PeerId) (peer : Peer) (stored : peer.address = p) :
    (peers.update p peer stored).lookup q =
      if q = p then (peers.lookup p).map (fun _ => peer) else peers.lookup q := by
  by_cases same : q = p
  · subst same; simp [update, lookup, lookup_replace_self]
  · simp [update, lookup, lookup_replace_ne _ _ same, same]

theorem keys_update (peers : Peers) (p : PeerId) (peer : Peer) (stored : peer.address = p) :
    (peers.update p peer stored).table.keys = peers.table.keys := by
  simp [update]

theorem remove_of_absent (peers : Peers) {p : PeerId} (absent : peers.lookup p = none) :
    peers.remove p = peers :=
  ext (AList.ext (List.kerase_of_not_mem_keys (AList.lookup_eq_none.mp absent)))

end Peers

/-- Detects dead peer connections. The injected clock is not kept: each call is handed the
reading it takes. -/
structure PingManager where
  peers : Peers
  pingTimeout : LocalDuration
  /-- Random number generator. -/
  rng : Rng
  outbox : Outbox

/-- One turn of the `timer_expired` loop, on the record `values_mut` yields. -/
def tickPeer (pingTimeout : LocalDuration) (now : LocalTime) (peer : Peer) (rng : Rng)
    (outbox : Outbox) : Peer × Rng × Outbox :=
  match peer.state with
  | .awaitingPong _ since =>
    if now - since ≥ pingTimeout then
      (peer, rng, outbox.disconnect peer.address (.peerTimeout "ping"))
    else (peer, rng, outbox)
  | .idle since =>
    if now - since ≥ pingInterval then
      let (nonce, rng) := rng.u64
      ({ peer with state := .awaitingPong nonce now }, rng,
        ((outbox.ping peer.address nonce).setTimer pingTimeout).setTimer pingInterval)
    else (peer, rng, outbox)

/-- The `timer_expired` loop over the entries, threading the generator and the outbox. -/
def tickPeers (pingTimeout : LocalDuration) (now : LocalTime) :
    Entries → Rng → Outbox → Entries × Rng × Outbox
  | [], rng, outbox => ([], rng, outbox)
  | ⟨p, peer⟩ :: rest, rng, outbox =>
    let (peer, rng, outbox) := tickPeer pingTimeout now peer rng outbox
    let (rest, rng, outbox) := tickPeers pingTimeout now rest rng outbox
    (⟨p, peer⟩ :: rest, rng, outbox)

theorem tickPeer_address (pingTimeout : LocalDuration) (now : LocalTime) (peer : Peer) (rng : Rng)
    (outbox : Outbox) : (tickPeer pingTimeout now peer rng outbox).1.address = peer.address := by
  unfold tickPeer
  split <;> (try split) <;> rfl

theorem tickPeers_keys (pingTimeout : LocalDuration) (now : LocalTime) (entries : Entries)
    (rng : Rng) (outbox : Outbox) :
    (tickPeers pingTimeout now entries rng outbox).1.keys = entries.keys := by
  induction entries generalizing rng outbox with
  | nil => rfl
  | cons entry rest ih => simp [tickPeers, List.keys_cons, ih]

theorem mem_tickPeers {pingTimeout : LocalDuration} {now : LocalTime} {entries : Entries}
    {rng : Rng} {outbox : Outbox} {entry : Σ _ : PeerId, Peer}
    (member : entry ∈ (tickPeers pingTimeout now entries rng outbox).1) :
    ∃ before ∈ entries, before.1 = entry.1 ∧ before.2.address = entry.2.address := by
  induction entries generalizing rng outbox with
  | nil => simp [tickPeers] at member
  | cons head rest ih =>
    simp only [tickPeers, List.mem_cons] at member
    rcases member with rfl | later
    · exact ⟨head, List.mem_cons_self _ _, rfl, (tickPeer_address ..).symm⟩
    · obtain ⟨before, kept, key, address⟩ := ih later
      exact ⟨before, List.mem_cons_of_mem _ kept, key, address⟩

/-- `values_mut` with `tickPeer` applied to every record in turn. -/
def Peers.tick (peers : Peers) (pingTimeout : LocalDuration) (now : LocalTime) (rng : Rng)
    (outbox : Outbox) : Peers × Rng × Outbox :=
  (⟨⟨(tickPeers pingTimeout now peers.table.entries rng outbox).1, by
      rw [List.NodupKeys, tickPeers_keys]; exact peers.table.nodupKeys⟩, fun p peer found => by
      obtain ⟨before, kept, key, address⟩ := mem_tickPeers (List.of_mem_dlookup found)
      simp only at key address
      rw [← address, ← key]
      exact peers.addressed before.1 before.2 (List.mem_dlookup peers.table.nodupKeys kept)⟩,
    (tickPeers pingTimeout now peers.table.entries rng outbox).2)

namespace PingManager

/-- Create a new ping manager. The map's hasher is seeded by `rng.clone()`, and fastrand's
`Clone` seeds the clone with a draw of `rng`. -/
def new (pingTimeout : LocalDuration) (rng : Rng) : PingManager :=
  let (_, rng) := rng.u64
  { peers := .empty, pingTimeout, rng, outbox := ⟨[]⟩ }

/-- Called when a peer is negotiated. -/
def peerNegotiated (m : PingManager) (now : LocalTime) (address : PeerId) : PingManager :=
  let (nonce, rng) := m.rng.u64
  { m with
    rng
    outbox := m.outbox.ping address nonce
    peers := m.peers.insert address ⟨address, .awaitingPong nonce now, []⟩ rfl }

/-- Called when a tick is received. -/
def timerExpired (m : PingManager) (now : LocalTime) : PingManager :=
  let (peers, rng, outbox) := m.peers.tick m.pingTimeout now m.rng m.outbox
  { m with peers, rng, outbox }

/-- Called when a `ping` is received. -/
def receivedPing (m : PingManager) (addr : PeerId) (nonce : UInt64) : Bool × PingManager :=
  if m.peers.containsKey addr then (true, { m with outbox := m.outbox.pong addr nonce })
  else (false, m)

/-- Called when a `pong` is received. -/
def receivedPong (m : PingManager) (now : LocalTime) (addr : PeerId) (nonce : UInt64) :
    Bool × PingManager :=
  match found : m.peers.lookup addr with
  | some peer =>
    match peer.state with
    | .awaitingPong lastNonce since =>
      if nonce = lastNonce then
        (true, { m with
          peers := m.peers.update addr { peer.recordLatency (now - since) with state := .idle now }
            (m.peers.addressed addr peer found) })
      else (false, m)
    -- Unsolicited or redundant `pong`. Ignore.
    | .idle _ => (false, m)
  | none => (false, m)

/-- Event received. -/
def receivedEvent (m : PingManager) (now : LocalTime) (event : Event) : PingManager :=
  match event with
  | .peerNegotiated addr .. => m.peerNegotiated now addr
  | .peerDisconnected addr .. => { m with peers := m.peers.remove addr }
  | .messageReceived sender message =>
    match message with
    | .ping nonce => (m.receivedPing sender nonce).2
    | .pong nonce => (m.receivedPong now sender nonce).2
    | .other _ => m
  | _ => m

/-- `Iterator::next`: the next effect from the outbox. -/
def next (m : PingManager) : Option Io × PingManager :=
  let (io, outbox) := m.outbox.next
  (io, { m with outbox })

end PingManager

end NakamotoP2p.Fsm.PingMgr
