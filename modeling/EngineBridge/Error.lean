import EngineBridge.ReqId

/-! What can go wrong, each cause with its message. -/

namespace EngineBridge

/-- The code with which an engine call failed. -/
structure EngineError where
  rc : Int32
deriving DecidableEq, Repr

/-- What is said of a failed engine call. -/
def EngineError.message (e : EngineError) : String :=
  "engine returned " ++ toString e.rc.toInt

/-- Why an operation of the bridge is refused or fails. -/
inductive Error
  /-- The request has been finalized, so it takes no output and issues no subrequest. -/
  | finalized (req : ReqId)
  /-- Status and headers change only before the header section is sent. -/
  | headersSent
  /-- The last chunk of the response has been handed over. -/
  | ended
  /-- A chunk that is not the last one has at least one byte. -/
  | emptyChunk
  /-- An engine call failed during the named operation. -/
  | engine (operation : String) (cause : EngineError)
  /-- Two callbacks of the named kind were registered under one number. -/
  | duplicateRoute (kind : String) (id : UInt64)
  /-- The worker's configuration cannot be used. -/
  | config (reason : String)
  /-- No thread could be started for offloaded work. -/
  | spawn (cause : String)
deriving DecidableEq, Repr

namespace Error

/-- The message of an error. -/
def message : Error → String
  | finalized req => "request " ++ req.text ++ " has already been finalized"
  | headersSent => "header section has already been sent"
  | ended => "response has already been ended"
  | emptyChunk => "the length must be greater than 0 when calling send"
  | engine operation cause => operation ++ " failed: " ++ cause.message
  | duplicateRoute kind id => kind ++ " id " ++ toString id.toNat ++ " registered more than once"
  | config reason => "invalid worker configuration: " ++ reason
  | spawn cause => "failed to spawn offload thread: " ++ cause

/-- The messages of an error and of what caused it, outermost first. -/
def chain : Error → List String
  | spawn cause => [(spawn cause).message, cause]
  | e => [e.message]

end Error

/-- An error that application code reports: its messages, outermost first. -/
structure Fault where
  chain : List String
deriving DecidableEq, Repr

/-- The message of a fault whose parts are plain texts: each cause after a colon. -/
def Fault.message (f : Fault) : String := ": ".intercalate f.chain

/-- An error of the bridge that application code passes on. -/
def Fault.ofError (e : Error) : Fault := ⟨e.chain⟩

end EngineBridge
