import EngineBridge.Code.Basic

/-! The engine, from which requests come. It is known only by the calls that the bridge makes of it and
    by what it answers them. -/

namespace EngineBridge

/-- What came of asking the engine to read the body of a request. -/
inductive BodyRead
  /-- All of it is there. -/
  | complete
  /-- The engine tells the worker when all of it is there. -/
  | pending
  | failed (rc : Int32)
deriving DecidableEq, Repr

/-- One buffer of a body. -/
inductive BodyBuffer
  | inMemory (data : Bytes)
  | inFile
deriving DecidableEq, Repr

/-- How a call of the engine has ended. -/
inductive Upshot
  | succeeded
  | failed
  | panicked
deriving DecidableEq, Repr

/-- A piece of a response body. -/
structure Chunk where
  data : Bytes
  /-- Whether it is sent at once. -/
  flush : Bool
  /-- Whether it is the last one. -/
  last : Bool
deriving DecidableEq, Repr

/-- A call of the engine. -/
inductive Call
  | log (level : Log.Level) (line : String)
  | location (req : ReqId)
  | method (req : ReqId)
  | uri (req : ReqId)
  | args (req : ReqId)
  | headers (req : ReqId)
  | readBody (req : ReqId)
  | body (req : ReqId)
  | mainOf (req : ReqId)
  | setStatus (req : ReqId) (code : UInt16)
  | addHeader (req : ReqId) (name value : String)
  | setContentLength (req : ReqId) (length : Nat)
  | setHeaderOnly (req : ReqId)
  | sendHeader (req : ReqId)
  | output (req : ReqId) (chunk : Chunk)
  | finalize (req : ReqId) (rc : Int32)
  | subrequest (parent : ReqId) (child : ChildRequest) (token : SubToken)
  | newAnchor (server : UInt64)
  | runPosted (req : ReqId)
  | setPeer (req : ReqId) (peer : Peer)
deriving DecidableEq, Repr

namespace Call

/-- The answer to a call. Running posted requests may leave tasks to be pushed onto the worker's
    queue. -/
@[reducible] def Reply (δ ω : Type) : Call → Type
  | location _ => Option UInt64
  | method _ => UInt32
  | uri _ => Bytes
  | args _ => Option Bytes
  | headers _ => List (Bytes × Bytes)
  | readBody _ => BodyRead
  | body _ => List BodyBuffer
  | mainOf _ => ReqId
  | addHeader _ _ _ | sendHeader _ | output _ _ | setPeer _ _ => Except EngineError Unit
  | subrequest _ _ _ | newAnchor _ => Except EngineError ReqId
  | runPosted _ => List (Task δ ω)
  | log _ _ | setStatus _ _ | setContentLength _ _ | setHeaderOnly _ | finalize _ _ => Unit

/-- Whether an answer tells of success; only a call that can fail may answer otherwise. -/
def succeeded {δ ω : Type} : (c : Call) → c.Reply δ ω → Bool
  | addHeader _ _ _, r | sendHeader _, r | output _ _, r | setPeer _ _, r => r.toBool
  | subrequest _ _ _, r | newAnchor _, r => r.toBool
  | readBody _, .failed _ => false
  | readBody _, .complete | readBody _, .pending => true
  | log _ _, _ | location _, _ | method _, _ | uri _, _ | args _, _ | headers _, _ | body _, _
  | mainOf _, _ | setStatus _ _, _ | setContentLength _ _, _ | setHeaderOnly _, _ | finalize _ _, _
  | runPosted _, _ => true

/-- How a call has ended with what came of it. -/
def upshot {δ ω : Type} (c : Call) : Except String (c.Reply δ ω) → Upshot
  | .ok r => if c.succeeded r then .succeeded else .failed
  | .error _ => .panicked

end Call

/-- An engine: what it answers a call in a given world, unless it panics, and the world after it. -/
abbrev Engine (δ ω : Type) := (c : Call) → ω → Except String (c.Reply δ ω) × ω

end EngineBridge
