import EngineBridge.Worker.Host
import EngineBridge.Worker.Registry

/-! The response of a request: status and headers first, then chunks, then one last chunk. A call that
    comes at the wrong time is refused before the engine hears of it. What has been handed over is noted
    before the engine is called, so it counts even if that call fails. -/

namespace EngineBridge.Host
open EngineBridge.Action Registry
variable {δ ω : Type} (h : Host δ ω)

/-- Sets the status of the response. -/
def setStatus (slot : Nat) (code : UInt16) : Action δ ω (Except Error Unit) := do
  let r ← registration slot
  match r.checkHeaderOpen with
  | .error e => return .error e
  | .ok () =>
    h.call r.serial (.setStatus r.id code)
    return .ok ()

/-- Adds a header to the response. -/
def addHeader (slot : Nat) (name value : String) : Action δ ω (Except Error Unit) := do
  let r ← registration slot
  match r.checkHeaderOpen with
  | .error e => return .error e
  | .ok () =>
    return (← h.call r.serial (.addHeader r.id name value)).mapError (.engine "add header")

/-- Hands over the header section, if that has not been done. -/
def ensureHeaderSent (slot : Nat) : Action δ ω (Except Error Unit) := do
  let r ← registration slot
  if r.headersSent then return .ok ()
  else
    modifyRegistration slot fun r => { r with headersSent := true }
    return (← h.call r.serial (.sendHeader r.id)).mapError (.engine "send header")

/-- Hands over a chunk that is not the last one. -/
def sendShared (slot : Nat) (data : Bytes) (flush : Bool) : Action δ ω (Except Error Unit) := do
  let r ← registration slot
  match r.checkWritable with
  | .error e => return .error e
  | .ok () =>
    if data.isEmpty then return .error .emptyChunk
    else
      match ← h.ensureHeaderSent slot with
      | .error e => return .error e
      | .ok () =>
        return (← h.call r.serial (.output r.id ⟨data, flush, false⟩)).mapError (.engine "output")

/-- Hands over a copy of a chunk that is not the last one. Nothing is copied when there is nothing. -/
def send (slot : Nat) (data : Bytes) (flush : Bool) : Action δ ω (Except Error Unit) := do
  if data.isEmpty then
    match (← registration slot).checkWritable with
    | .error e => return .error e
    | .ok () => return .error .emptyChunk
  else h.sendShared slot data flush

/-- Hands over the last chunk of the response itself. -/
def outputLast (r : Registration) (data : Bytes) : Action δ ω (Except Error Outcome) := do
  let reply ← h.call r.serial (.output r.id ⟨data, false, true⟩)
  return (reply.mapError (.engine "output last buffer")).map fun _ => .ok

/-- Announces the length of a response that is a single chunk; an empty one has no body. -/
def announce (r : Registration) (data : Bytes) : Action δ ω Unit := do
  h.call r.serial (.setContentLength r.id data.length)
  if data.isEmpty then h.call r.serial (.setHeaderOnly r.id)

/-- Hands over the last chunk of the response. If it is the only one, its length is announced, and an
    empty one makes a response without a body. -/
def conclude (slot : Nat) (data : Bytes) : Action δ ω (Except Error Outcome) := do
  let r ← registration slot
  match r.checkWritable with
  | .error e => return .error e
  | .ok () =>
    modifyRegistration slot fun r => { r with ended := true }
    if r.headersSent then h.outputLast r data
    else
      h.announce r data
      match ← h.ensureHeaderSent slot with
      | .error e => return .error e
      | .ok () => if data.isEmpty then return .ok .ok else h.outputLast r data

end EngineBridge.Host
