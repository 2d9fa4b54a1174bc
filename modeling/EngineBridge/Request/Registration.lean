import EngineBridge.Error
import EngineBridge.Request.Outcome
import EngineBridge.Text.Ascii

/-! The worker's record of a request. Each registration of a request has a serial number of its own, so
    that a name or a slot used again is not taken for the request it meant before. -/

namespace EngineBridge

/-- What the worker keeps of a request while it is registered. -/
structure Registration where
  id : ReqId
  serial : Nat
  phase : Phase
  location : Option UInt64
  /-- Whether the request was made by the bridge to host subrequests. -/
  anchor : Bool := false
  /-- Whether the header section has been handed over. -/
  headersSent : Bool := false
  /-- Whether the last chunk of the response has been handed over. -/
  ended : Bool := false
  /-- The path, once it has been read. -/
  uri : Option String := none
  /-- The headers, once they have been read. -/
  headers : Option (List (String × String)) := none
  /-- The body, once it has been read. -/
  body : Option Bytes := none
deriving DecidableEq, Repr

namespace Registration

/-- Refuses a request that is over. -/
def checkLive (r : Registration) : Except Error Unit :=
  if r.phase = .finalized then .error (.finalized r.id) else .ok ()

/-- Refuses a request that takes no more output. -/
def checkWritable (r : Registration) : Except Error Unit := do
  r.checkLive
  if r.ended then .error .ended else .ok ()

/-- Refuses a request whose header section can no longer be changed. -/
def checkHeaderOpen (r : Registration) : Except Error Unit := do
  r.checkWritable
  if r.headersSent then .error .headersSent else .ok ()

end Registration

/-- Names one registration from outside the worker: the slot where it was put and its serial number. -/
structure Resumer where
  slot : Nat
  serial : Nat
  req : ReqId
deriving DecidableEq, Repr

end EngineBridge
