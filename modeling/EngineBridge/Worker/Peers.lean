import EngineBridge.Request.Headers
import EngineBridge.Worker.Host

/-! The choice of the peer to which a request is sent. A target given with a subrequest comes first; else
    the resolver of the pool of servers decides. -/

namespace EngineBridge.Host
open EngineBridge.Action
variable {δ ω : Type} (h : Host δ ω)

/-- Answers a resolver's call about a request on a pool. Nothing is kept from one call to the
    next. -/
def answerPeer (req : ReqId) (pool : UInt64) : (c : PeerCall) → Action δ ω c.Result
  | .req => return req
  | .pool => return pool
  | .method => return Method.ofMask (← h.call none (.method req))
  | .uri => return Utf8.decode (← h.call none (.uri req))
  | .header name => return Headers.findRaw? (← h.call none (.headers req)) name
  | .log level text => h.log (.application level text) (some req)

/-- Runs a resolver for a request on a pool. -/
def runResolver (req : ReqId) (pool : UInt64) :
    Resolver δ ω → Action δ ω (Except Fault (Option Net.SocketAddr))
  | .finish result => return result
  | .panic message => raise message
  | .call c next => do runResolver req pool (next (← h.answerPeer req pool c))
  | .data next => do runResolver req pool (next (← worker).data)
  | .world change next => do
    let before ← shared fun s => (s.world, { s with world := change s.world })
    runResolver req pool (next before)

/-- The peer that the resolver of a pool picks for a request. -/
def resolvePeer (req : ReqId) (pool : UInt64) : Action δ ω (Option Peer) := do
  match h.routes.resolver? pool with
  | none =>
    h.log (.noResolver pool) (some req)
    return none
  | some code =>
    match ← h.guarded (h.runResolver req pool code) with
    | .ok (some addr) => return some (Peer.ofSocketAddr addr)
    | .ok none =>
      h.log (.noServer pool) (some req)
      return none
    | .error message =>
      h.log (.resolverFailed pool message) (some req)
      return none

/-- The peer to which a request on a pool is to be sent. -/
def pickPeer (req : ReqId) (pool : UInt64) : Action δ ω (Option Peer) := do
  match (← worker).targets[req]? with
  | some peer => return some peer
  | none => h.resolvePeer req pool

/-- Stores the peer that has been picked for a request with the engine. -/
def storePeer (req : ReqId) : Option Peer → Action δ ω PeerDecision
  | none => return .declined
  | some peer => do
    match ← h.call none (.setPeer req peer) with
    | .ok () => return .selected peer
    | .error cause =>
      h.log (.peerNotStored peer cause) (some req)
      return .failed

/-- Picks the peer for a request on a pool, and stores it with the engine. -/
def selectPeer (req : ReqId) (pool : UInt64) : Action δ ω PeerDecision := do
  h.storePeer req (← h.pickPeer req pool)

end EngineBridge.Host
