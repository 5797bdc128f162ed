import NakamotoP2p.Net
import NakamotoP2p.Fsm.Event
import NakamotoP2p.Fsm.Event.TxStatus
import NakamotoP2p.Fsm.Event.Display
import NakamotoP2p.Fsm.Output
import NakamotoP2p.Fsm.PingMgr
import NakamotoP2p.Fsm.PingMgr.Tick
import NakamotoP2p.Fsm.PingMgr.Received
import NakamotoP2p.Fsm.PingMgr.History
import NakamotoP2p.Fsm.PingMgr.Run
import NakamotoP2p.Fsm.PingMgr.Tracked
import NakamotoP2p.Fsm.PingMgr.Invariant
import NakamotoP2p.Fsm.PingMgr.Chronicle
import NakamotoP2p.Fsm.PingMgr.Liveness
import NakamotoP2p.Fsm.PingMgr.Session
import NakamotoP2p.Fsm.PingMgr.Latency
import NakamotoP2p.Fsm.PingMgr.Observed
import NakamotoP2p.Fsm.PingMgr.Nonces
import NakamotoP2p.Fsm.PingMgr.Delivery
import NakamotoP2p.Fsm.PingMgr.Responder
import NakamotoP2p.Fsm.PingMgr.Detection
import NakamotoP2p.Fsm.PingMgr.TickOrder
import NakamotoP2p.Fsm.PingMgr.Samples
import NakamotoP2p.Fsm.PingMgr.Rate
import NakamotoP2p.Fsm.PingMgr.Timers
