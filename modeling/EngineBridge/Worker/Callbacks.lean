import EngineBridge.Worker.Output
import EngineBridge.Worker.Reading
import EngineBridge.Worker.Subrequests

/-! Application code run against a request. -/

namespace EngineBridge.Host
open EngineBridge.Action Registry
variable {δ ω : Type} (h : Host δ ω)

/-- Answers a call on the request in a slot. -/
def answer (slot : Nat) : (c : RequestCall) → Action δ ω c.Result
  | .id => return (← registration slot).id
  | .phase => return (← registration slot).phase
  | .isAnchor => return (← registration slot).anchor
  | .method => h.method slot
  | .uri => h.uri slot
  | .args => h.args slot
  | .headers => h.headers slot
  | .header name => h.header slot name
  | .body => h.body slot
  | .setStatus code => h.setStatus slot code
  | .addHeader name value => h.addHeader slot name value
  | .send data flush => h.send slot data flush
  | .sendShared data flush => h.sendShared slot data flush
  | .conclude data => h.conclude slot data
  | .concludeShared data => h.conclude slot data
  | .resumer => do
    let r ← registration slot
    return ⟨slot, r.serial, r.id⟩
  | .log level text => do
    let r ← registration slot
    h.log (.application level text) (some r.id)

/-- Changes the worker's data. Answers what they were before. -/
def changeData (change : δ → δ) : Action δ ω δ := do
  let w ← worker
  modifyWorker fun w => { w with data := change w.data }
  return w.data

/-- Changes the world. Answers what it was before. -/
def changeWorld (change : ω → ω) : Action δ ω ω :=
  shared fun s => (s.world, { s with world := change s.world })

/-- Runs code against the request in a slot. -/
def runCallback (slot : Nat) : Callback δ ω → Action δ ω (Except Fault Outcome)
  | .finish result => return result
  | .panic message => raise message
  | .call c next => do runCallback slot (next (← h.answer slot c))
  | .data change next => do runCallback slot (next (← changeData change))
  | .world change next => do runCallback slot (next (← changeWorld change))
  | .sendRequest sub done next => do runCallback slot (next (← h.sendRequest slot sub done))
  | .offload work done next => do runCallback slot (next (← h.offload slot work done))
  | .push work next => do runCallback slot (next (← h.push work))
  | .failedCount next => do runCallback slot (next (← failedCount))
  | .awaitOffload index next => do runCallback slot (next (← h.awaitOffload index))

end EngineBridge.Host
