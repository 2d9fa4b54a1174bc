import EngineBridge.Worker.Lifecycle
import EngineBridge.Worker.Peers

/-! Tasks and the tick that runs them. A tick runs what is in the queue when it begins, so what is pushed
    meanwhile waits for the next one; a task that panics does not keep the others from running. A task
    may itself tick, to a limited depth. -/

namespace EngineBridge.Host
open EngineBridge.Action Registry
variable {δ ω : Type} (h : Host δ ω)

/-- Does what is asked of the worker, `tick` being how it ticks. -/
def perform (tick : Action δ ω (List Nat)) : (k : Hook ω) → Action δ ω k.Result
  | .contentPhase req => h.contentPhase req
  | .bodyReady req => h.bodyReady req
  | .released req => released req
  | .newAnchor server => h.newAnchor server
  | .tick => return (← tick).length
  | .subrequestDone token completion => h.subrequestDone token completion
  | .selectPeer req pool => h.selectPeer req pool
  | .log level text => h.log (.application level text) none
  | .setFilter filter => modifyWorker fun w => { w with filter }
  | .setLogger filter logger => modifyWorker fun w => { w with filter, logger := some logger }
  | .workerId => return (← worker).id
  | .activeRequests => return (← worker).requests.size
  | .liveSubrequests => return (← worker).live

/-- Runs code against a request that is registered. -/
def useRequest (req : ReqId) (code : Callback δ ω) :
    Action δ ω (Option (Except Fault Outcome)) := do
  match ← slotOf? req with
  | some slot => return some (← h.runCallback slot code)
  | none => return none

/-- Runs code against the worker, `tick` being how it ticks. -/
def runTask (tick : Action δ ω (List Nat)) : Task δ ω → Action δ ω Unit
  | .done => return ()
  | .panic message => raise message
  | .hook k next => do runTask tick (next (← h.perform tick k))
  | .request req code next => do runTask tick (next (← h.useRequest req code))
  | .data change next => do runTask tick (next (← changeData change))
  | .world change next => do runTask tick (next (← changeWorld change))
  | .push work next => do runTask tick (next (← h.push work))
  | .failedCount next => do runTask tick (next (← failedCount))
  | .awaitOffload index next => do runTask tick (next (← h.awaitOffload index))

/-- Runs a closure taken from the queue. -/
def runParcel (tick : Action δ ω (List Nat)) (p : Parcel δ ω) : Action δ ω Unit := do
  match p.work with
  | .task t =>
    record (.ran p.ticket)
    h.runTask tick t
  | .continuation target code => h.resume target p.ticket code

/-- Runs a closure taken from the queue and logs its panic. -/
def runContained (tick : Action δ ω (List Nat)) (p : Parcel δ ω) : Action δ ω Unit :=
  tryCatch (h.runParcel tick p) fun
    | .panic message => h.log (.taskPanicked message) none
    | .overrun => throw .overrun

/-- Takes closures from the queue and runs them, up to the given number. Answers their tickets. -/
def drain (run : Parcel δ ω → Action δ ω Unit) : Nat → Action δ ω (List Nat)
  | 0 => return []
  | n + 1 => do
    match ← shared Shared.take with
    | none => return []
    | some p =>
      run p
      return p.ticket :: (← drain run n)

/-- Logs that pushes have failed since the last tick, if any have. -/
def reportFailed : Action δ ω Unit := do
  let failed ← failedCount
  let last := (← worker).lastFailed
  if failed ≠ last then
    h.log (.pushesLost (failed - last)) none
    modifyWorker fun w => { w with lastFailed := failed }

/-- A tick in which further ones may be nested to the given depth. Answers the tickets of the closures
    that it has itself taken from the queue and run, in order. -/
def tickWithin : (depth : Nat) → Action δ ω (List Nat)
  | 0 => throw .overrun
  | depth + 1 => do
    let visible := (← get).shared.queue.length
    let taken ← drain (h.runContained (tickWithin depth)) visible
    h.reportFailed
    return taken

/-- How deep ticks can be nested. -/
def nestingLimit : Nat := 1000

/-- Runs the closures that are in the queue. -/
def tick : Action δ ω (List Nat) := h.tickWithin nestingLimit

/-- Runs code of the engine's loop against the worker. -/
def run (t : Task δ ω) : Action δ ω Unit := h.runTask h.tick t

end EngineBridge.Host
