import NakamotoP2p.Fsm.Event

/-! `impl fmt::Display` for `Event` and `TxStatus`: the log line of each event, over the texts
the other crates' `Display` and `Debug` write for its fields. -/

namespace NakamotoP2p.Fsm

/-- What the `Display` and `Debug` impls of other crates write for the fields an event shows. -/
structure Renderers where
  /-- `Display` of `SocketAddr`. -/
  addr : PeerId → String
  /-- `Display` of `BlockHash` and `Txid`. -/
  hash : Hash256 → String
  /-- `Debug` of `BlockHash`. -/
  hashDebug : Hash256 → String
  services : ServiceFlags → String
  /-- `Debug` of `Link`. -/
  link : Link → String

def TxStatus.fmt (r : Renderers) : TxStatus Transaction → String
  | .unconfirmed => "transaction is unconfirmed"
  | .acknowledged peer => "transaction was acknowledged by peer " ++ r.addr peer
  | .confirmed height block =>
    "transaction was included in block " ++ r.hash block ++ " at height " ++ toString height
  | .reverted transaction => "transaction " ++ r.hash transaction.txid ++ " has been reverted"
  | .stale replacedBy block => "transaction was replaced by " ++ r.hash replacedBy ++ " in block " ++ r.hash block

def Event.fmt (r : Renderers) : Event → String
  | .initializing => "Initializing peer-to-peer system.."
  | .peerLoadedBloomFilter peer => "Bloom filter loaded to peer " ++ r.addr peer
  | .merkleBlockScanStarted start => "A merkle block rescan started at height " ++ toString start
  | .merkleBlockRescanStopped height => "A merkle block resan stopped " ++ toString height
  | .ready => "Ready to process events and commands"
  | .blockHeadersSynced height hash =>
    "Chain in sync with network at height " ++ toString height ++ " (" ++ r.hash hash ++ ")"
  | .receivedMerkleBlock height peer =>
    "MerkleBlock received at height " ++ toString height ++ " from " ++ r.addr peer
  | .blockFilterImported hash height reorg =>
    "Block Filters imported to " ++ r.hash hash ++ " at height " ++ toString height ++ " (reorg=" ++
      toString reorg ++ ")"
  | .blockHeadersImported hash height reorg =>
    "Chain tip updated to " ++ r.hash hash ++ " at height " ++ toString height ++ " (reorg=" ++
      toString reorg ++ ")"
  | .blockConnected header height =>
    "Block " ++ r.hash header.blockHash ++ " connected at height " ++ toString height
  | .blockDisconnected header height =>
    "Block " ++ r.hash header.blockHash ++ " disconnected at height " ++ toString height
  | .blockProcessed block height =>
    "Block " ++ r.hashDebug block.blockHash ++ " processed at height " ++ toString height
  | .blockMatched height => "Block matched at height " ++ toString height
  | .feeEstimated height fees =>
    "Transaction median fee rate for block #" ++ toString height ++ " is " ++ toString fees.median ++ " sat/vB"
  | .filterRescanStarted start (some stop) =>
    "Rescan started from height " ++ toString start ++ " to " ++ toString stop
  | .filterRescanStarted start none => "Rescan started from height " ++ toString start
  | .filterRescanStopped height => "Rescan completed at height " ++ toString height
  | .filterHeadersSynced height => "Filter headers synced up to height " ++ toString height
  | .filterReceived «from» block => "Filter for block " ++ r.hash block ++ " received from " ++ r.addr «from»
  | .filterProcessed height matched =>
    "Filter processed at height " ++ toString height ++ " (match = " ++ toString matched ++ ")"
  | .txStatusChanged txid status => "Transaction " ++ r.hash txid ++ " status changed: " ++ status.fmt r
  | .scanned height => "Chain scanned up to height " ++ toString height
  | .peerConnected addr link => "Peer " ++ r.addr addr ++ " connected (" ++ r.link link ++ ")"
  | .peerConnectionFailed addr err => "Peer connection attempt to " ++ r.addr addr ++ " failed with " ++ err
  | .peerHeightUpdated height => "Peer height updated to " ++ toString height
  | .receivedMatchedTx transaction => "Received transaction match " ++ r.hash transaction.txid
  | .peerMisbehaved addr reason => "Peer " ++ r.addr addr ++ " misbehaved: " ++ reason
  | .peerDisconnected addr reason => "Disconnected from " ++ r.addr addr ++ " (" ++ reason ++ ")"
  | .peerTimedOut addr => "Peer " ++ r.addr addr ++ " timed out"
  | .peerConnecting addr => "Connecting to peer " ++ r.addr addr
  | .peerNegotiated addr services height =>
    "Peer " ++ r.addr addr ++ " negotiated with services " ++ r.services services ++ " and height " ++
      toString height ++ ".."
  | .messageReceived «from» message => "Message `" ++ message.cmd ++ "` received from " ++ r.addr «from»
  | .addressBookExhausted => "Address book exhausted.. fetching new addresses from peers"
  | .error err => "Error: " ++ err

/-- The texts an event shows as it carries them: reasons, errors and a message's command name. -/
def Event.texts : Event → List String
  | .peerConnectionFailed _ err => [err]
  | .peerMisbehaved _ reason => [reason]
  | .peerDisconnected _ reason => [reason]
  | .messageReceived _ message => [message.cmd]
  | .error err => [err]
  | _ => []

/-- A text without a line break. -/
def OneLine (s : String) : Prop := '\n' ∉ s.data

instance (s : String) : Decidable (OneLine s) := inferInstanceAs (Decidable ('\n' ∉ s.data))

@[simp] theorem oneLine_append {a b : String} : OneLine (a ++ b) ↔ OneLine a ∧ OneLine b := by
  unfold OneLine
  rw [String.data_append, List.mem_append, not_or]

theorem newline_not_mem_toDigitsCore : ∀ fuel n ds, '\n' ∉ ds → '\n' ∉ Nat.toDigitsCore 10 fuel n ds
  | 0, _, _, clean => clean
  | fuel + 1, n, ds, clean => by
    have digit : ∀ k < 10, Nat.digitChar k ≠ '\n' := by decide
    have head : '\n' ∉ Nat.digitChar (n % 10) :: ds := by
      simp [(digit _ (Nat.mod_lt n (by decide))).symm, clean]
    show '\n' ∉ if n / 10 = 0 then Nat.digitChar (n % 10) :: ds
      else Nat.toDigitsCore 10 fuel (n / 10) (Nat.digitChar (n % 10) :: ds)
    split
    · exact head
    · exact newline_not_mem_toDigitsCore fuel _ _ head

@[simp] theorem oneLine_toString_uint64 (n : UInt64) : OneLine (toString n) :=
  newline_not_mem_toDigitsCore (n.toNat + 1) n.toNat [] (List.not_mem_nil _)

@[simp] theorem oneLine_toString_bool (b : Bool) : OneLine (toString b) := by
  cases b <;> decide

/-- Every renderer writes one line. -/
structure Renderers.SingleLine (r : Renderers) : Prop where
  addr : ∀ a, OneLine (r.addr a)
  hash : ∀ h, OneLine (r.hash h)
  hashDebug : ∀ h, OneLine (r.hashDebug h)
  services : ∀ s, OneLine (r.services s)
  link : ∀ l, OneLine (r.link l)

theorem TxStatus.fmt_oneLine {r : Renderers} (rendered : r.SingleLine) (status : TxStatus Transaction) :
    OneLine (status.fmt r) := by
  cases status <;> simp only [TxStatus.fmt, oneLine_append, rendered.addr, rendered.hash,
    oneLine_toString_uint64, and_true] <;> decide

end NakamotoP2p.Fsm
