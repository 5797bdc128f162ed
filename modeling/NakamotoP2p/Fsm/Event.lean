import NakamotoP2p.Net

namespace NakamotoP2p.Fsm

/-- The `NetworkMessage`s of the `bitcoin` crate that the managers tell apart: `ping` and
`pong` carry their nonce, and every other message is known by its command name. -/
inductive NetworkMessage where
  | ping (nonce : UInt64)
  | pong (nonce : UInt64)
  | other (command : String)
  deriving DecidableEq, Repr

/-- The message's command name, `NetworkMessage::cmd`. -/
def NetworkMessage.cmd : NetworkMessage → String
  | ping _ => "ping"
  | pong _ => "pong"
  | other command => command

/-- Block height. -/
abbrev Height := UInt64

/-- Modelled from the spec: a 32-byte double-SHA256 hash, read as one big-endian number, so
that the byte-by-byte order Rust derives for the hash is the order of that number. -/
abbrev Hash256 := Fin (2 ^ 256)

abbrev BlockHash := Hash256

abbrev Txid := Hash256

/-- Transaction status of a given transaction. `Tx` is the `bitcoin` crate's `Transaction`,
outside this repository, ordered as that crate orders it. -/
inductive TxStatus (Tx : Type) where
  /-- This is the initial state of a transaction after it has been announced by the client. -/
  | unconfirmed
  /-- Transaction was acknowledged by a peer. -/
  | acknowledged (peer : SocketAddr)
  /-- Transaction was included in a block. -/
  | confirmed (height : Height) (block : BlockHash)
  /-- A transaction that was previously confirmed, and is now reverted due to a re-org. -/
  | reverted (transaction : Tx)
  /-- Transaction was replaced by another transaction, and will probably never be included in
  a block. -/
  | stale (replacedBy : Txid) (block : BlockHash)

/-- A `bitcoin` transaction, known by its txid: the one thing an event's text reads of it. -/
structure Transaction where
  txid : Txid

/-- A block header, known by its block hash. -/
structure BlockHeader where
  blockHash : BlockHash

/-- A block, known by its block hash. -/
structure Block where
  blockHash : BlockHash

/-- A fee estimate, known by its median fee rate in sat/vB. -/
structure FeeEstimate where
  median : UInt64

/-- The `bitcoin` crate's service bits of a peer. -/
structure ServiceFlags where
  bits : UInt64

/-- The direction of a peer connection. -/
inductive Link where
  | inbound
  | outbound

/-- Event emitted by the client, with the fields `received_event` or `Display` reads; another
crate's reason or error is the text its `Display` writes. -/
inductive Event where
  | initializing
  | ready
  | peerLoadedBloomFilter (peer : PeerId)
  | peerConnected (addr : PeerId) (link : Link)
  | peerConnecting (addr : PeerId)
  | peerDisconnected (addr : PeerId) (reason : String)
  | peerTimedOut (addr : PeerId)
  | peerConnectionFailed (addr : PeerId) (error : String)
  | peerNegotiated (addr : PeerId) (services : ServiceFlags) (height : Height)
  | peerHeightUpdated (height : Height)
  | peerMisbehaved (addr : PeerId) (reason : String)
  | blockConnected (header : BlockHeader) (height : Height)
  | blockDisconnected (header : BlockHeader) (height : Height)
  | blockProcessed (block : Block) (height : Height)
  | blockMatched (height : Height)
  | receivedMerkleBlock (height : Height) (peer : PeerId)
  | blockHeadersSynced (height : Height) (hash : BlockHash)
  | blockHeadersImported (hash : BlockHash) (height : Height) (reorg : Bool)
  | blockFilterImported (hash : BlockHash) (height : Height) (reorg : Bool)
  | feeEstimated (height : Height) (fees : FeeEstimate)
  | filterProcessed (height : Height) (matched : Bool)
  | filterReceived («from» : PeerId) (block : BlockHash)
  | filterRescanStarted (start : Height) (stop : Option Height)
  | filterRescanStopped (height : Height)
  | merkleBlockRescanStopped (height : Height)
  | merkleBlockScanStarted (start : Height)
  | filterHeadersSynced (height : Height)
  | txStatusChanged (txid : Txid) (status : TxStatus Transaction)
  | receivedMatchedTx (transaction : Transaction)
  | scanned (height : Height)
  | messageReceived («from» : PeerId) (message : NetworkMessage)
  | addressBookExhausted
  | error (error : String)

end NakamotoP2p.Fsm
