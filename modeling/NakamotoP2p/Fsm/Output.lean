import NakamotoP2p.Fsm.Event

namespace NakamotoP2p.Fsm

/-- Modelled from the spec: the reason given with a disconnect. The ping manager gives only a
peer timeout, tagged with the subsystem that timed the peer out. -/
inductive DisconnectReason where
  | peerTimeout (subsystem : String)
  deriving DecidableEq, Repr

/-- Modelled from the spec: an effect for the environment to perform. -/
inductive Io where
  | send (addr : PeerId) (message : NetworkMessage)
  | setTimer (duration : LocalDuration)
  | disconnect (addr : PeerId) (reason : DisconnectReason)
  deriving DecidableEq, Repr

/-- The peer an effect is addressed to; timers are addressed to none. -/
def Io.peer? : Io → Option PeerId
  | send addr _ => some addr
  | setTimer _ => none
  | disconnect addr _ => some addr

/-- Modelled from the spec: a manager's FIFO queue of pending `Io`, pushed at the back and
drained from the front. -/
structure Outbox where
  queue : List Io
  deriving DecidableEq, Repr

namespace Outbox

def push (outbox : Outbox) (io : Io) : Outbox := ⟨outbox.queue ++ [io]⟩

def ping (outbox : Outbox) (addr : PeerId) (nonce : UInt64) : Outbox :=
  outbox.push (.send addr (.ping nonce))

def pong (outbox : Outbox) (addr : PeerId) (nonce : UInt64) : Outbox :=
  outbox.push (.send addr (.pong nonce))

def disconnect (outbox : Outbox) (addr : PeerId) (reason : DisconnectReason) : Outbox :=
  outbox.push (.disconnect addr reason)

def setTimer (outbox : Outbox) (duration : LocalDuration) : Outbox :=
  outbox.push (.setTimer duration)

/-- The next queued effect, or `none` when the queue is empty. -/
def next (outbox : Outbox) : Option Io × Outbox :=
  match outbox.queue with
  | [] => (none, outbox)
  | io :: rest => (some io, ⟨rest⟩)

@[simp] theorem push_queue (outbox : Outbox) (io : Io) :
    (outbox.push io).queue = outbox.queue ++ [io] := rfl

@[simp] theorem ping_queue (outbox : Outbox) (addr : PeerId) (nonce : UInt64) :
    (outbox.ping addr nonce).queue = outbox.queue ++ [.send addr (.ping nonce)] := rfl

@[simp] theorem pong_queue (outbox : Outbox) (addr : PeerId) (nonce : UInt64) :
    (outbox.pong addr nonce).queue = outbox.queue ++ [.send addr (.pong nonce)] := rfl

@[simp] theorem disconnect_queue (outbox : Outbox) (addr : PeerId) (reason : DisconnectReason) :
    (outbox.disconnect addr reason).queue = outbox.queue ++ [.disconnect addr reason] := rfl

@[simp] theorem setTimer_queue (outbox : Outbox) (duration : LocalDuration) :
    (outbox.setTimer duration).queue = outbox.queue ++ [.setTimer duration] := rfl

end Outbox

end NakamotoP2p.Fsm
