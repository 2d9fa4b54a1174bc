import EngineBridge.Engine.Idle
import EngineBridge.Notify
import EngineBridge.Scenario.World
import EngineBridge.Worker.Tick

/-! A worker over the idle engine, woken through a notification channel. Its data are numbers, which
    tasks append. -/

namespace EngineBridge.Scenario.Idle

/-- One request to the worker or to the handles to it. -/
inductive Request
  | execute (n : UInt64)
  | executeRun (first : UInt64) (count : Nat)
  | wait
  | tick
  | data
  | failedCount
  | contentPhase (req : ReqId)
  | newAnchor (server : UInt64)
  | selectPeer (req : ReqId) (pool : UInt64)

/-- What a request is answered. -/
inductive Answer
  | flag (b : Bool)
  | flags (bs : List Bool)
  | count (n : Nat)
  | numbers (ns : Array UInt64)
  | contentPhase (p : ContentPhase)
  | anchor (r : Except Error ReqId)
  | decision (d : PeerDecision)
  | stopped (s : Stop)

/-- The data of the worker. -/
abbrev Numbers := Array UInt64

/-- The task that appends a number. -/
def append (n : UInt64) : Task Numbers Notify := .data (·.push n) fun _ => .done

/-- The application's callbacks: one handler, one resolver that picks a local peer and one that
    fails. -/
def entries : List (Route Numbers Notify) :=
  [.handler 1 (.finish (.ok .ok)),
   .resolver 1 (.finish (.ok (some (.v4 ⟨⟨127, 0, 0, 1⟩, 80⟩)))),
   .resolver 2 (.finish (.error ⟨["no server"]⟩))]

/-- Answers a request. A wait that would block is not begun. -/
def answer (h : Host Numbers Notify) : Request → Action Numbers Notify Answer
  | .execute n => return .flag (← h.push (.task (append n)))
  | .executeRun first count => do
    let push (i : Nat) := h.push (.task (append (first + UInt64.ofNat i)))
    return .flags (← (List.range count).mapM push)
  | .wait => Action.shared fun s =>
    match s.world.wait? with
    | some world => (.flag true, { s with world })
    | none => (.flag false, s)
  | .tick => return .count (← h.tick).length
  | .data => return .numbers (← Action.worker).data
  | .failedCount => return .count (← Host.failedCount).toNat
  | .contentPhase req => return .contentPhase (← h.contentPhase req)
  | .newAnchor server => return .anchor (← h.newAnchor server)
  | .selectPeer req pool => return .decision (← h.selectPeer req pool)

/-- An answer, with how many requests are registered and how many subrequests have not completed. -/
abbrev Sight := Answer × Nat × Nat

/-- Answers requests in turn. -/
def answerAll (h : Host Numbers Notify) : List Request → State Numbers Notify → List Sight
  | [], _ => []
  | r :: rs, s =>
    let (result, s) := (answer h r).exec s
    let a := match result with
      | .ok a => a
      | .error stop => .stopped stop
    (a, s.worker.requests.size, s.worker.live) :: answerAll h rs s

/-- Puts a new worker through a list of requests. -/
def run (config : Config) (rs : List Request) : Except Error (List Sight) := do
  let routes ← Routes.ofList entries
  let state ← State.open .ring config (#[] : Numbers) Notify.new
  return answerAll (.plain Engine.idle routes Notify.send) rs state

end EngineBridge.Scenario.Idle
