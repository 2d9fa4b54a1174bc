import EngineBridge.Scenario.World

/-! Scripts: application code and steps of the engine's loop, written down as lists of actions. -/

namespace EngineBridge.Scenario

/-- The work of an offload. -/
inductive OffloadWork
  | value (text : String)
  | panic (message : String)
  | threadName

mutual

/-- An action of a script that runs against a request. A strict action ends the script with its error,
    if it has one. -/
inductive Act
  | finish (result : Except Fault Outcome)
  | panic (message : String)
  | call (c : RequestCall) (strict : Bool)
  /-- Sets the status that the child of a completed subrequest had. -/
  | statusOfChild (strict : Bool)
  /-- Concludes with the body of the child of a completed subrequest. -/
  | concludeWithChild (strict : Bool)
  | data
  | pushData (value : String)
  | sendRequest (sub : Subrequest) (done : List Act) (strict : Bool)
  /-- Stores a resumer of the request. -/
  | resumer
  | resumeSelf (script : List Act)
  | offload (work : OffloadWork) (done : List Act) (strict : Bool)
  | errand (e : Errand)

/-- What needs no worker: it can be done from a request, from a task and from the engine's loop, also
    when the worker is gone. -/
inductive Errand
  | execute (steps : List Step)
  /-- Resumes through a stored resumer. -/
  | resume (resumer : Nat) (script : List Act)
  | failedCount
  | awaitOffload (index : Nat)
  | configure (settings : Settings)

/-- A step of a task or of the engine's loop. -/
inductive Step
  | contentPhase (req : ReqId)
  | bodyReady (req : ReqId)
  | released (req : ReqId)
  | request (req : ReqId) (script : List Act)
  | newAnchor (server : UInt64)
  | tick
  | completeSub (sub : Nat) (completing : Completing)
  | selectPeer (req : ReqId) (pool : UInt64)
  | workerId
  | data
  | pushData (value : String)
  | log (level : Log.Level) (text : String)
  | setFilter (filter : Log.Filter)
  | setLogger (filter : Log.Filter)
  | panic (message : String)
  | errand (e : Errand)

end

/-- An action of a resolver's script. -/
inductive PeerAct
  | call (c : PeerCall)
  | data
  | finish (result : Except Fault (Option Net.SocketAddr))
  /-- Ends with the peer that a header names. -/
  | finishWithHeader (name : String)
  | panic (message : String)

/-- A move of the engine's loop. -/
inductive Move
  | step (s : Step)
  | dropWorker

/-! ### Names -/

/-- The name under which a call on a request is recorded. -/
def callName : RequestCall → String
  | .id => "id"
  | .phase => "phase"
  | .isAnchor => "is_anchor"
  | .method => "method"
  | .uri => "uri"
  | .args => "args"
  | .headers => "headers"
  | .header _ => "header"
  | .body => "body"
  | .setStatus _ => "status"
  | .addHeader _ _ => "add_header"
  | .send _ _ => "send"
  | .sendShared _ _ => "send_bytes"
  | .conclude _ => "end"
  | .concludeShared _ => "end_bytes"
  | .resumer => "resumer"
  | .log _ _ => "log"

/-- The name under which a resolver's call is recorded. -/
def peerCallName : PeerCall → String
  | .req => "req"
  | .pool => "upstream_id"
  | .method => "method"
  | .uri => "uri"
  | .header _ => "header"
  | .log _ _ => "log"

end EngineBridge.Scenario
