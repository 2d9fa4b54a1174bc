import EngineBridge.Log.Level
import EngineBridge.ReqId

/-! What a logger is given. -/

namespace EngineBridge.Log

/-- One log line with what it is about: the worker it comes from and, if there is one, the request. -/
structure Record where
  worker : UInt32
  level : Level
  req : Option ReqId
  text : String
deriving DecidableEq, Repr

/-- The line as the engine's log takes it, which has no field for the request. -/
def Record.line (r : Record) : String :=
  match r.req with
  | some req => "request " ++ req.text ++ ": " ++ r.text
  | none => r.text

end EngineBridge.Log
