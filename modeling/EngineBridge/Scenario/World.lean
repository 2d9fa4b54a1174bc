import EngineBridge.Engine.Call

/-! The world of a scenario: what the scripted engine knows and has been told to do, the handles that
    scripts have stored, and the events recorded. -/

namespace EngineBridge.Scenario

/-- What became of one action or step. -/
inductive Answer
  | null
  | flag (b : Bool)
  | number (n : Nat)
  | text (s : Option String)
  | bytes (bs : Bytes)
  | texts (ss : List String)
  | pairs (ps : List (String × String))
  | resumer (index : Nat) (req : ReqId)
  | status (code : UInt16)
  | selected (peer : Peer)
  | error (e : Error)
  | failed (message : String)
  | panicked (message : String)
  | overrun

/-- What is recorded while a scenario is played. -/
inductive Event
  | log (level : Log.Level) (line : String)
  | logger (record : Log.Record)
  | setStatus (req : ReqId) (code : UInt16)
  | addHeader (req : ReqId) (name value : String) (rc : Int32)
  | contentLength (req : ReqId) (length : Nat)
  | headerOnly (req : ReqId)
  | sendHeader (req : ReqId) (rc : Int32)
  | output (req : ReqId) (chunk : Chunk) (rc : Int32)
  | finalize (req : ReqId) (rc : Int32)
  | runPosted (req : ReqId)
  | setPeer (req : ReqId) (peer : Peer) (rc : Int32)
  | anchor (server : UInt64) (req : Option ReqId) (rc : Int32)
  | subrequest (parent : ReqId) (child : Option ReqId) (request : ChildRequest) (rc : Int32)
  | handler (location : UInt64) (req : ReqId) (phase : Phase)
  | continuation (req : ReqId) (phase : Phase)
  | callback (req : ReqId) (phase : Phase) (completion : Completion)
  | offloadDone (req : ReqId) (phase : Phase) (result : Except String String)
  | resolver (pool : UInt64) (req : ReqId)
  | task
  | postedDone (sub : Nat)
  | act (name : String) (answer : Answer)
  | step (name : String) (answer : Answer)

/-- A request as the scripted engine knows it. -/
structure Known where
  location : Option UInt64 := none
  method : UInt32 := 2
  uri : Bytes := [47]
  args : Option Bytes := none
  headers : List (Bytes × Bytes) := []
  body : List BodyBuffer := []
  read : BodyRead := .complete
  main : Option ReqId := none

/-- The calls of the engine that a scenario can make fail. -/
inductive Fallible
  | addHeader
  | sendHeader
  | output
  | finalize
  | subrequest
  | anchor
  | setPeer
deriving DecidableEq

/-- The name of a call that can be made fail. -/
def Fallible.name : Fallible → String
  | addHeader => "add_header"
  | sendHeader => "send_header"
  | output => "output"
  | finalize => "finalize"
  | subrequest => "subrequest"
  | anchor => "anchor"
  | setPeer => "set_peer"

/-- How a call is to end: with a code, zero meaning success, or in a panic. -/
inductive Ending
  | code (rc : Int32)
  | panic
deriving DecidableEq

/-- How a subrequest completes. A child that is not given is the one the engine has made. -/
structure Completing where
  child : Option ReqId
  rc : Int32
  status : UInt16
  body : Bytes

/-- The completion of a subrequest for which the engine has made the given child, if it has. -/
def Completing.completion (c : Completing) (made : Option ReqId) : Completion :=
  ⟨(c.child.or made).getD ⟨0⟩, c.rc, c.status, c.body⟩

/-- A subrequest that the engine has been asked for. -/
structure Sub where
  token : SubToken
  child : Option ReqId
  completed : Bool

/-- The world of a scenario. -/
structure World where
  known : ReqMap Known
  endings : Fallible → List Ending
  /-- The name last given to a request that the engine has made itself. -/
  lastId : UInt64
  /-- A text that makes the engine's log panic. -/
  panicLog : Option String
  /-- How the children complete that the engine runs at once, if it runs them. -/
  completePosted : Option Completing
  subs : Array Sub
  resumers : Array Resumer
  wakes : Nat
  /-- The events recorded, latest first. -/
  events : List Event
  /-- What became of the step of the engine's loop that ended last. -/
  answer : Answer

namespace World

/-- The world before any setting. -/
def initial : World where
  known := ∅
  endings := fun _ => []
  lastId := 1000
  panicLog := none
  completePosted := none
  subs := #[]
  resumers := #[]
  wakes := 0
  events := []
  answer := .null

/-- Records an event. -/
def emit (w : World) (e : Event) : World := { w with events := e :: w.events }

/-- Takes the next ending of a call. A call without one succeeds. -/
def takeEnding (w : World) (f : Fallible) : Ending × World :=
  match w.endings f with
  | [] => (.code 0, w)
  | e :: es => (e, { w with endings := fun g => if g = f then es else w.endings g })

/-- Makes a request known under the next name. -/
def addRequest (w : World) (k : Known) : ReqId × World :=
  let id : ReqId := ⟨w.lastId + 1⟩
  (id, { w with lastId := id.val, known := w.known.insert id k })

/-- Marks a subrequest as completed. -/
def markCompleted (w : World) (sub : Nat) : World :=
  { w with subs := w.subs.modify sub fun s => { s with completed := true } }

end World

/-- Changes to the scripted engine. What is not mentioned stays as it is. -/
structure Settings where
  requests : List (ReqId × Known) := []
  lastId : Option UInt64 := none
  endings : List (Fallible × List Ending) := []
  panicLog : Option (Option String) := none
  completePosted : Option (Option Completing) := none

/-- The world with changed settings. -/
def World.configure (w : World) (s : Settings) : World :=
  { w with
    known := s.requests.foldl (fun m (id, k) => m.insert id k) w.known
    lastId := s.lastId.getD w.lastId
    endings := s.endings.foldl (fun m (f, es) => fun g => if g = f then es else m g) w.endings
    panicLog := s.panicLog.getD w.panicLog
    completePosted := s.completePosted.getD w.completePosted }

end EngineBridge.Scenario
