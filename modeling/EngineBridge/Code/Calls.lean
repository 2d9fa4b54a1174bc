import EngineBridge.Log.Filter
import EngineBridge.Log.Record
import EngineBridge.Request.Registration
import EngineBridge.Request.Subrequest

/-! The calls that application code makes and that carry no further code, with what each answers. -/

namespace EngineBridge

/-- What application code reads from its request or does with it. -/
inductive RequestCall
  | id
  | phase
  | isAnchor
  | method
  | uri
  | args
  | headers
  | header (name : String)
  | body
  | setStatus (code : UInt16)
  | addHeader (name value : String)
  | send (data : Bytes) (flush : Bool)
  | sendShared (data : Bytes) (flush : Bool)
  | conclude (data : Bytes)
  | concludeShared (data : Bytes)
  | resumer
  | log (level : Log.Level) (text : String)
deriving DecidableEq, Repr

/-- The answer to a call on a request. -/
@[reducible] def RequestCall.Result : RequestCall → Type
  | id => ReqId
  | phase => Phase
  | isAnchor => Bool
  | method => Method
  | uri => String
  | args => Option String
  | headers => List (String × String)
  | header _ => Option String
  | body => Bytes
  | setStatus _ | addHeader _ _ | send _ _ | sendShared _ _ => Except Error Unit
  | conclude _ | concludeShared _ => Except Error Outcome
  | resumer => Resumer
  | log _ _ => Unit

/-- What a peer resolver reads, or logs. -/
inductive PeerCall
  | req
  | pool
  | method
  | uri
  | header (name : String)
  | log (level : Log.Level) (text : String)
deriving DecidableEq, Repr

/-- The answer to a resolver's call. -/
@[reducible] def PeerCall.Result : PeerCall → Type
  | req => ReqId
  | pool => UInt64
  | method => Method
  | uri => String
  | header _ => Option String
  | log _ _ => Unit

/-- A logger: what it does to the world with a record, unless it panics. -/
abbrev Logger (ω : Type) := Log.Record → ω → Except String Unit × ω

/-- What the engine does with a request next. -/
inductive ContentPhase
  /-- It waits for the bridge to finalize the request. -/
  | done
  /-- It responds with a status and finalizes the request itself. -/
  | status (code : UInt16)
deriving DecidableEq, Repr

/-- What became of the choice of a peer. -/
inductive PeerDecision
  | selected (peer : Peer)
  | declined
  | failed
deriving DecidableEq, Repr

/-- What is asked of the worker itself, by the engine's loop or by a task. -/
inductive Hook (ω : Type)
  | contentPhase (req : ReqId)
  | bodyReady (req : ReqId)
  | released (req : ReqId)
  | newAnchor (server : UInt64)
  | tick
  | subrequestDone (token : SubToken) (completion : Completion)
  | selectPeer (req : ReqId) (pool : UInt64)
  | log (level : Log.Level) (text : String)
  | setFilter (filter : Log.Filter)
  | setLogger (filter : Log.Filter) (logger : Logger ω)
  | workerId
  | activeRequests
  | liveSubrequests

/-- The answer of the worker. -/
@[reducible] def Hook.Result {ω : Type} : Hook ω → Type
  | contentPhase _ => ContentPhase
  | newAnchor _ => Except Error ReqId
  | selectPeer _ _ => PeerDecision
  | tick | activeRequests | liveSubrequests => Nat
  | workerId => UInt32
  | bodyReady _ | released _ | subrequestDone _ _ | log _ _ | setFilter _ | setLogger _ _ => Unit

end EngineBridge
