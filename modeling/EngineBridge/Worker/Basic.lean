import EngineBridge.Arena
import EngineBridge.Request.Registration
import EngineBridge.Routes
import EngineBridge.Shared.Basic

/-! The state of a worker, and actions on it. An action ends with a value or is stopped, by a panic or
    because ticks are nested too deep; either way it leaves the state as it is at that point. -/

namespace EngineBridge

/-- A subrequest that has not completed. -/
structure Pending (δ ω : Type) where
  serial : Nat
  /-- The root of the chain of requests that the issuing request belongs to. -/
  root : ReqId
  /-- The request given for the callback to run against. -/
  main : Option ReqId
  target : Option Peer
  /-- The child, once the engine has made it. -/
  child : Option ReqId
  ticket : Nat
  done : Completion → Callback δ ω

/-- The request against which the callback of a subrequest runs. -/
def Pending.caller {δ ω : Type} (p : Pending δ ω) : ReqId := p.main.getD p.root

/-- What only the worker itself touches. -/
structure Worker (δ ω : Type) where
  id : UInt32
  /-- The count of failed pushes that the last tick has seen. -/
  lastFailed : UInt64
  filter : Log.Filter
  logger : Option (Logger ω)
  data : δ
  requests : Arena Registration
  /-- The slot of each registered request. -/
  slots : ReqMap Nat
  /-- The serial number of the next registration or subrequest. -/
  nextSerial : Nat
  subrequests : Arena (Pending δ ω)
  /-- How many subrequests have not completed. -/
  live : Nat
  /-- The peers to which children are sent, whatever their pools' resolvers say. -/
  targets : ReqMap Peer

/-- The worker before its first request. -/
def Worker.new {δ ω : Type} (config : Config) (data : δ) : Worker δ ω where
  id := config.workerId
  lastFailed := 0
  filter := config.filter
  logger := none
  data := data
  requests := .empty
  slots := ∅
  nextSerial := 1
  subrequests := .empty
  live := 0
  targets := ∅

/-- A worker with what it shares. -/
structure State (δ ω : Type) where
  worker : Worker δ ω
  shared : Shared δ ω

/-- A worker for a configuration that can be used. -/
def State.open {δ ω : Type} (store : Queue.Store) (config : Config) (data : δ) (world : ω) :
    Except Error (State δ ω) := do
  config.validate
  return ⟨.new config data, .new store config world⟩

/-- Why an action has not come to its end. -/
inductive Stop
  /-- A panic, which the next guard around it turns into an error. -/
  | panic (message : String)
  /-- Ticks are nested beyond the limit. No guard holds this. -/
  | overrun
deriving DecidableEq, Repr

/-- Code that acts on a worker. -/
abbrev Action (δ ω : Type) := ExceptT Stop (StateM (State δ ω))

namespace Action
variable {δ ω α : Type}

/-- What an action comes to in a state, and the state that it leaves. -/
def exec (a : Action δ ω α) (s : State δ ω) : Except Stop α × State δ ω := a.run.run s

/-- Stops with a panic. -/
def raise (message : String) : Action δ ω α := throw (.panic message)

/-- The worker as it is. -/
def worker : Action δ ω (Worker δ ω) := return (← get).worker

/-- Changes the worker. -/
def modifyWorker (f : Worker δ ω → Worker δ ω) : Action δ ω Unit :=
  modify fun s => { s with worker := f s.worker }

/-- Does what the handles to the worker can do. -/
def shared (f : Shared δ ω → α × Shared δ ω) : Action δ ω α :=
  modifyGet fun ⟨worker, shared⟩ => let (a, shared) := f shared; (a, ⟨worker, shared⟩)

/-- Writes an entry into the journal. -/
def record (e : Entry) : Action δ ω Unit :=
  modify fun s => { s with shared := s.shared.record e }

/-- Runs an action, and another one if it panics, before the panic goes on. -/
def onPanic (a : Action δ ω α) (cleanup : Action δ ω Unit) : Action δ ω α :=
  tryCatch a fun
    | .panic message => do cleanup; raise message
    | .overrun => throw .overrun

/-- Runs an action and, whether it ends or panics, another one after it. -/
def ensuring (a : Action δ ω α) (cleanup : Action δ ω Unit) : Action δ ω α := do
  let result ← a.onPanic cleanup
  cleanup
  return result

/-- Runs an action and holds its panic, answering with the message. -/
def hold (a : Action δ ω α) : Action δ ω (Except String α) :=
  tryCatch (do return .ok (← a)) fun
    | .panic message => return .error message
    | .overrun => throw .overrun

end Action
end EngineBridge
