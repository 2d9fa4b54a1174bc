import EngineBridge.Worker.Basic

/-! What surrounds a worker and stays the same through its life: the engine, the application's
    callbacks and the texts of its errors, the waker of the event loop, and the system that starts threads.
    All that the worker does with them goes through the functions here. -/

namespace EngineBridge

/-- The surroundings of a worker. -/
structure Host (δ ω : Type) where
  engine : Engine δ ω
  routes : Routes δ ω
  waker : Waker ω
  /-- The text that the application's code makes of a fault, or the panic of that code. -/
  text : Fault → Except String String
  /-- Starts a thread for work of a request, or answers why there is none. -/
  spawn : ReqId → ω → Except String Unit × ω

namespace Host
open EngineBridge.Action
variable {δ ω α : Type} (h : Host δ ω)

/-- Surroundings in which every fault has its plain message as text and every thread starts. -/
def plain (engine : Engine δ ω) (routes : Routes δ ω) (waker : Waker ω) : Host δ ω where
  engine
  routes
  waker
  text f := .ok f.message
  spawn _ world := (.ok (), world)

/-- Calls the engine, on behalf of a registration if a serial number is given. -/
def call (serial : Option Nat) (c : Call) : Action δ ω (c.Reply δ ω) := do
  let reply ← shared fun s =>
    let (reply, world) := h.engine c s.world
    (reply, { s with world }.record (.called serial c (c.upshot reply)))
  match reply with
  | .ok r => return r
  | .error message => raise message

/-- Hands a line to a logger. -/
def callLogger (logger : Logger ω) (line : Log.Record) : Action δ ω Unit := do
  match ← shared fun s => let (r, world) := logger line s.world; (r, { s with world }) with
  | .ok () => return ()
  | .error message => raise message

/-- Logs a line, if the filter lets it through: to the logger that is set, or else to the engine. -/
def log (notice : Log.Notice) (req : Option ReqId) : Action δ ω Unit := do
  let w ← worker
  if w.filter.allows notice.level then
    record (.logged notice req)
    let line : Log.Record := ⟨w.id, notice.level, req, notice.text⟩
    match w.logger with
    | some logger => callLogger logger line
    | none => h.call none (.log line.level line.line)

/-- Pushes a closure onto the queue. -/
def push (work : Work δ ω) : Action δ ω Bool := shared fun s => s.push h.waker work

/-- Lets the thread of an offload end. -/
def awaitOffload (index : Nat) : Action δ ω Bool := shared fun s => s.awaitOffload h.waker index

/-- How many pushes have failed so far. -/
def failedCount : Action δ ω UInt64 := return (← get).shared.failed

/-- Starts a thread for work of a request, or answers why there is none. -/
def startThread (req : ReqId) : Action δ ω (Except String Unit) := shared fun s =>
  let (started, world) := h.spawn req s.world
  (started, { s with world })

/-- Makes the text of a fault, which may panic. -/
def display (f : Fault) : Action δ ω String :=
  match h.text f with
  | .ok text => return text
  | .error message => raise message

/-- What is made of what application code has come to: its result, or a message that tells of its fault or
    its panic. -/
def explain : Except String (Except Fault α) → Action δ ω (Except String α)
  | .ok (.ok result) => return .ok result
  | .ok (.error f) => return .error (← h.display f)
  | .error message => return .error message

/-- Runs application code and turns both its fault and its panic into a message. The text of a fault is made
    after the code has come to its end, and a panic while it is made is not held. -/
def guarded (a : Action δ ω (Except Fault α)) : Action δ ω (Except String α) := do
  h.explain (← hold a)

end Host
end EngineBridge
