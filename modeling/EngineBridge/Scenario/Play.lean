import EngineBridge.Scenario.Code
import EngineBridge.Worker.Closing

/-! Scenarios: a worker over the scripted engine, put through the moves of an event loop, and what is
    seen of it after each of them. -/

namespace EngineBridge.Scenario

/-- A scenario as it is given. Its handlers are registered before its resolvers. -/
structure Plan where
  config : Config
  settings : Settings
  handlers : List (UInt64 × List Act)
  resolvers : List (UInt64 × List PeerAct)
  moves : List Move

/-- The routes that a scenario registers, in order. -/
def Plan.routes (p : Plan) : List (Route Data World) :=
  p.handlers.map (fun (id, script) => .handler id (handlerCode id script)) ++
    p.resolvers.map (fun (id, script) => .resolver id (resolverCode id script))

/-- What is seen after a move. -/
structure Sight where
  answer : Answer
  events : List Event
  /-- How many requests are registered and how many subrequests have not completed, as long as there
      is a worker. -/
  counts : Option (Nat × Nat)
  /-- The registered ones of the requests that the engine knows, with their phases. -/
  phases : List (ReqId × Phase)
  failed : Nat
  wakes : Nat
  ran : Nat
  destroyed : Nat

/-- What is seen of a scenario: each move, then the worker's data, then how many closures have been run
    and destroyed when all is gone. -/
structure Playback where
  moves : List Sight
  data : Option Data
  ran : Nat
  destroyed : Nat

/-- A scenario being played: with its worker, or with what is left of it. -/
inductive Stage
  | working (s : State Data World)
  | dropped (s : Shared Data World)

namespace Stage

/-- What outlives the worker. -/
def shared : Stage → Shared Data World
  | working s => s.shared
  | dropped s => s

/-- Changes what outlives the worker. -/
def modifyShared (f : Shared Data World → Shared Data World) : Stage → Stage
  | working s => working { s with shared := f s.shared }
  | dropped s => dropped (f s)

/-- Changes the world. -/
def modifyWorld (f : World → World) : Stage → Stage :=
  modifyShared fun s => { s with world := f s.world }

/-- The data of the worker. -/
def data? : Stage → Option Data
  | working s => some s.worker.data
  | dropped _ => none

/-- Drops the worker. -/
def drop : Stage → Stage
  | working s => dropped s.close
  | dropped s => dropped s

/-- The requests that the engine knows and that are registered, by ascending name. -/
def phases : Stage → List (ReqId × Phase)
  | working s => s.shared.world.known.keys.filterMap fun req =>
    (s.worker.registration? req).map fun r => (req, r.phase)
  | dropped _ => []

end Stage

/-- The waker of a scenario counts how often it is called. -/
def waker : Waker World := fun w => { w with wakes := w.wakes + 1 }

/-- What needs no worker, done without one. -/
def detached : Reach (Shared Data World → Answer × Shared Data World) where
  world change next s := next s.world { s with world := change s.world }
  push work next s := let (b, s) := s.push waker work; next b s
  failedCount next s := next s.failed s
  awaitOffload index next s := let (b, s) := s.awaitOffload waker index; next b s

/-- Keeps the answer of a step in the world. -/
def keepAnswer (a : Answer) : Job := .world (fun w => { w with answer := a }) fun _ => .done

/-- Takes a step of the engine's loop. Without a worker only errands can be done. -/
def takeStep (h : Host Data World) (s : Step) : Stage → Answer × Stage
  | .working state =>
    let (r, state) := (h.run (s.job keepAnswer)).exec state
    let answer := match r with
      | .ok () => state.shared.world.answer
      | .error (.panic message) => .panicked message
      | .error .overrun => .overrun
    (answer, .working state)
  | .dropped shared =>
    match s with
    | .errand e => let (a, shared) := e.does detached Prod.mk shared; (a, .dropped shared)
    | _ => (.null, .dropped shared)

/-- Makes a move. -/
def makeMove (h : Host Data World) (m : Move) (stage : Stage) : Answer × Stage :=
  match m with
  | .step s => takeStep h s stage
  | .dropWorker => (.null, stage.drop)

/-- What is seen at a stage, given the answer of the move that has led there. -/
def look (answer : Answer) (stage : Stage) : Sight :=
  let shared := stage.shared
  { answer
    events := shared.world.events.reverse
    counts := match stage with
      | .working s => some (s.worker.requests.size, s.worker.live)
      | .dropped _ => none
    phases := stage.phases
    failed := shared.failed.toNat
    wakes := shared.world.wakes
    ran := shared.journal.ranCount
    destroyed := shared.journal.destroyedCount }

/-- Makes moves in turn. What is recorded during one is not seen with the next. -/
def makeMoves (h : Host Data World) : List Move → Stage → List Sight × Stage
  | [], stage => ([], stage)
  | m :: ms, stage =>
    let (answer, stage) := makeMove h m stage
    let sight := look answer stage
    let (sights, stage) := makeMoves h ms (stage.modifyWorld fun w => { w with events := [] })
    (sight :: sights, stage)

/-- Plays a scenario. At its end the offloads still running are let end, then the worker is dropped, and
    then the queue. -/
def play (p : Plan) : Except Error Playback := do
  let routes ← Routes.ofList p.routes
  let state ← State.open .ring p.config ([] : Data) (World.initial.configure p.settings)
  let (moves, stage) := makeMoves (.plain engine routes waker) p.moves (.working state)
  let last := (stage.modifyShared (·.awaitAll waker)).drop.shared.close
  return ⟨moves, stage.data?, last.journal.ranCount, last.journal.destroyedCount⟩

end EngineBridge.Scenario
