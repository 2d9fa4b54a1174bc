import EngineBridge.Request.Headers
import EngineBridge.Worker.Host
import EngineBridge.Worker.Registry

/-! What a request tells of itself. Path, headers and body are read from the engine once for each
    registration and then kept; method and query string are read anew each time. -/

namespace EngineBridge.Host
open EngineBridge.Action Registry
variable {δ ω : Type} (h : Host δ ω)

/-- The method of the request in a slot. -/
def method (slot : Nat) : Action δ ω Method := do
  let r ← registration slot
  return Method.ofMask (← h.call r.serial (.method r.id))

/-- The path of the request in a slot. -/
def uri (slot : Nat) : Action δ ω String := do
  let r ← registration slot
  match r.uri with
  | some uri => return uri
  | none =>
    let uri := Utf8.decode (← h.call r.serial (.uri r.id))
    modifyRegistration slot fun r => { r with uri := some uri }
    return uri

/-- The query string of the request in a slot. -/
def args (slot : Nat) : Action δ ω (Option String) := do
  let r ← registration slot
  return (← h.call r.serial (.args r.id)).map Utf8.decode

/-- The headers of the request in a slot. -/
def headers (slot : Nat) : Action δ ω (List (String × String)) := do
  let r ← registration slot
  match r.headers with
  | some headers => return headers
  | none =>
    let headers := Headers.decode (← h.call r.serial (.headers r.id))
    modifyRegistration slot fun r => { r with headers := some headers }
    return headers

/-- The value of a header of the request in a slot. -/
def header (slot : Nat) (name : String) : Action δ ω (Option String) :=
  return Headers.find? (← h.headers slot) name

/-- The bytes of the buffers that are in memory, in order. -/
def inMemory (buffers : List BodyBuffer) : Bytes :=
  buffers.flatMap fun
    | .inMemory data => data
    | .inFile => []

/-- Reads a body from the engine. One that has been put into a file, even in part, counts as empty and
    is logged. The engine is asked twice, first for what kind of buffers there are. -/
def readBody (r : Registration) : Action δ ω Bytes := do
  let buffers ← h.call r.serial (.body r.id)
  if .inFile ∈ buffers then
    h.log .bodyInFile (some r.id)
    return []
  else return inMemory (← h.call r.serial (.body r.id))

/-- The body of the request in a slot. -/
def body (slot : Nat) : Action δ ω Bytes := do
  let r ← registration slot
  match r.body with
  | some body => return body
  | none =>
    let body ← h.readBody r
    modifyRegistration slot fun r => { r with body := some body }
    return body

end EngineBridge.Host
