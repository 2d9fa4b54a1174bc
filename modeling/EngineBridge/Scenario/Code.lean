import EngineBridge.Scenario.Engine
import EngineBridge.Scenario.Script
import EngineBridge.Worker.Tick

/-! What scripts do. Each action is recorded with its answer once it has returned. -/

namespace EngineBridge.Scenario

/-- Code of a scenario that runs against a request. -/
abbrev Code := Callback Data World

/-- Code of a scenario that runs against the worker. -/
abbrev Job := Task Data World

/-! ### Answers -/

/-- What is recorded of the answer to a call on a request. -/
def Answer.ofCall : (c : RequestCall) → c.Result → Answer
  | .id, req => .number req.val.toNat
  | .phase, phase => .text phase.name
  | .isAnchor, b => .flag b
  | .method, m => .text m.name
  | .uri, uri => .text uri
  | .args, args => .text args
  | .headers, hs => .pairs hs
  | .header _, value => .text value
  | .body, body => .bytes body
  | .setStatus _, r | .addHeader _ _, r | .send _ _, r | .sendShared _ _, r =>
    match r with
    | .ok () => .null
    | .error e => .error e
  | .conclude _, r | .concludeShared _, r =>
    match r with
    | .ok outcome => .text outcome.name
    | .error e => .error e
  | .resumer, r => .resumer r.slot r.req
  | .log _ _, () => .null

/-- What is recorded of the answer to a resolver's call. -/
def Answer.ofPeerCall : (c : PeerCall) → c.Result → Answer
  | .req, req => .number req.val.toNat
  | .pool, pool => .number pool.toNat
  | .method, m => .text m.name
  | .uri, uri => .text uri
  | .header _, value => .text value
  | .log _ _, () => .null

/-- What is recorded of the next move of the engine with a request. -/
def Answer.ofContentPhase : ContentPhase → Answer
  | .done => .text "Done"
  | .status code => .status code

/-- What is recorded of the choice of a peer. -/
def Answer.ofDecision : PeerDecision → Answer
  | .selected peer => .selected peer
  | .declined => .text "Declined"
  | .failed => .text "Failed"

/-- What is recorded of the making of an anchor. -/
def Answer.ofAnchor : Except Error ReqId → Answer
  | .ok req => .number req.val.toNat
  | .error e => .error e

/-- What is recorded of a use of a request. -/
def Answer.ofRequest : Option (Except Fault Outcome) → Answer
  | none => .text "unregistered"
  | some (.ok outcome) => .text outcome.name
  | some (.error fault) => .failed fault.message

/-! ### Recording -/

/-- The name under which an errand is recorded. -/
def Errand.name : Errand → String
  | execute _ => "execute"
  | resume _ _ => "resume"
  | failedCount => "failed_count"
  | awaitOffload _ => "release_offload"
  | configure _ => "engine"

/-- The name under which a step is recorded. -/
def Step.name : Step → String
  | contentPhase _ => "content_phase"
  | bodyReady _ => "body_ready"
  | released _ => "released"
  | request _ _ => "request"
  | newAnchor _ => "new_anchor"
  | tick => "tick"
  | completeSub _ _ => "sub_done"
  | selectPeer _ _ => "select_peer"
  | workerId => "worker_id"
  | data => "data"
  | pushData _ => "data_push"
  | log _ _ => "log"
  | setFilter _ => "set_log_filter"
  | setLogger _ => "set_logger"
  | panic _ => "panic"
  | errand e => e.name

/-- Records an event and goes on. -/
def recorded (e : Event) (next : Code) : Code := .world (·.emit e) fun _ => next

/-- Records an action with its answer and goes on, unless the action is strict and has failed. -/
def acted (name : String) (strict : Bool) (a : Answer) (next : Code) : Code :=
  recorded (.act name a) <|
    match strict, a with
    | true, .error e => .finish (.error (.ofError e))
    | _, _ => next

/-- Begins a script by recording its request and the phase that this is in. -/
def entered (event : ReqId → Phase → Event) (script : Code) : Code :=
  .call .id fun req => .call .phase fun phase => recorded (event req phase) script

/-- The work of an offload, on a thread of the given name. -/
def OffloadWork.run : OffloadWork → String → Except String String
  | value text, _ => .ok text
  | panic message, _ => .error message
  | threadName, name => .ok name

/-! ### Errands -/

/-- The ways to do what needs no worker, for code of type `β`. -/
structure Reach (β : Type) where
  world : (World → World) → (World → β) → β
  push : Work Data World → (Bool → β) → β
  failedCount : (UInt64 → β) → β
  awaitOffload : Nat → (Bool → β) → β

/-- What needs no worker, done by code that runs against a request. -/
def Reach.code : Reach Code := ⟨.world, .push, .failedCount, .awaitOffload⟩

/-- What needs no worker, done by code that runs against the worker. -/
def Reach.job : Reach Job := ⟨.world, .push, .failedCount, .awaitOffload⟩

/-- An answer that is absent unless something has been done. -/
def Answer.ofDone : Bool → Answer
  | true => .flag true
  | false => .null

mutual

/-- What an action does, `rest` being what comes after it and `completion` the completed child, if the
    script is a subrequest callback. -/
def Act.code (completion : Option Completion) (rest : Code) : Act → Code
  | .finish result => .finish result
  | .panic message => .panic message
  | .call c strict => .call c fun r => acted (callName c) strict (.ofCall c r) rest
  | .statusOfChild strict =>
    .call (.setStatus (completion.elim 0 (·.status))) fun r =>
      acted "status_resp" strict (.ofCall (.setStatus 0) r) rest
  | .concludeWithChild strict =>
    .call (.concludeShared (completion.elim [] (·.body))) fun r =>
      acted "end_resp" strict (.ofCall (.concludeShared []) r) rest
  | .data => .data id fun ss => acted "data" false (.texts ss) rest
  | .pushData value => .data (· ++ [value]) fun _ => acted "data_push" false .null rest
  | .sendRequest sub done strict =>
    .sendRequest sub
      (fun c => entered (.callback · · c) (scriptCode (some c) done))
      fun
      | .ok token => .world id fun w =>
        acted "send_request" strict (.number (w.subs.toList.findIdx (·.token = token))) rest
      | .error e => acted "send_request" strict (.error e) rest
  | .resumer => .call .resumer fun r =>
    .world (fun w => { w with resumers := w.resumers.push r }) fun w =>
      acted "resumer" false (.resumer w.resumers.size r.req) rest
  | .resumeSelf script => .call .resumer fun r =>
    .push (.continuation r (entered .continuation (scriptCode none script))) fun b =>
      acted "execute_on_worker" false (.flag b) rest
  | .offload work done strict =>
    .offload work.run (fun result => entered (.offloadDone · · result) (scriptCode none done))
      fun
      | .ok outcome => acted "offload" strict (.text outcome.name) rest
      | .error e => acted "offload" strict (.error e) rest
  | .errand e => e.does .code fun a => acted e.name false a rest

/-- What a script does. It ends well if none of its actions ends it. -/
def scriptCode (completion : Option Completion) : List Act → Code
  | [] => .finish (.ok .ok)
  | a :: as => a.code completion (scriptCode completion as)
decreasing_by all_goals
  simp only [List.cons.sizeOf_spec]
  omega

/-- What an errand does, going on with its answer. -/
def Errand.does {β : Type} (reach : Reach β) (next : Answer → β) : Errand → β
  | .execute steps => reach.push (.task (.world (·.emit .task) fun _ => stepsJob steps))
    fun b => next (.flag b)
  | .resume resumer script => reach.world id fun w =>
    match w.resumers[resumer]? with
    | some r => reach.push (.continuation r (entered .continuation (scriptCode none script)))
      fun b => next (.flag b)
    | none => next .null
  | .failedCount => reach.failedCount fun n => next (.number n.toNat)
  | .awaitOffload index => reach.awaitOffload index fun b => next (.ofDone b)
  | .configure settings => reach.world (·.configure settings) fun _ => next .null

/-- What a step does, going on with its answer. -/
def Step.job (next : Answer → Job) : Step → Job
  | .contentPhase req => .hook (.contentPhase req) fun r => next (.ofContentPhase r)
  | .bodyReady req => .hook (.bodyReady req) fun _ => next .null
  | .released req => .hook (.released req) fun _ => next .null
  | .request req script => .request req (scriptCode none script) fun r => next (.ofRequest r)
  | .newAnchor server => .hook (.newAnchor server) fun r => next (.ofAnchor r)
  | .tick => .hook .tick fun n => next (.number n)
  | .completeSub sub completing => .world id fun w =>
    match w.subs[sub]? with
    | some s => .world (·.markCompleted sub) fun _ =>
      .hook (.subrequestDone s.token (completing.completion s.child)) fun _ => next (.flag true)
    | none => next .null
  | .selectPeer req pool => .hook (.selectPeer req pool) fun r => next (.ofDecision r)
  | .workerId => .hook .workerId fun id => next (.number id.toNat)
  | .data => .data id fun ss => next (.texts ss)
  | .pushData value => .data (· ++ [value]) fun _ => next .null
  | .log level text => .hook (.log level text) fun _ => next .null
  | .setFilter filter => .hook (.setFilter filter) fun _ => next .null
  | .setLogger filter =>
    .hook (.setLogger filter fun record w => (.ok (), w.emit (.logger record))) fun _ => next .null
  | .panic message => .panic message
  | .errand e => e.does .job next

/-- What the steps of a task do, each recorded with its answer. -/
def stepsJob : List Step → Job
  | [] => .done
  | s :: ss => s.job fun a => .world (·.emit (.step s.name a)) fun _ => stepsJob ss
decreasing_by all_goals
  simp only [List.cons.sizeOf_spec]
  omega

end

/-! ### Callbacks of the application -/

/-- The handler of a location that runs a script. -/
def handlerCode (location : UInt64) (script : List Act) : Code :=
  entered (.handler location) (scriptCode none script)

/-- What a resolver's script does. It picks no peer if none of its actions ends it. -/
def peerScriptCode : List PeerAct → Resolver Data World
  | [] => .finish (.ok none)
  | a :: as =>
    let acted (name : String) (answer : Answer) : Resolver Data World :=
      .world (·.emit (.act name answer)) fun _ => peerScriptCode as
    match a with
    | .call c => .call c fun r => acted (peerCallName c) (.ofPeerCall c r)
    | .data => .data fun ss => acted "data" (.texts ss)
    | .finish result => .finish result
    | .finishWithHeader name => .call (.header name) fun value =>
      .finish (.ok ((value.bind Peer.parse?).map Peer.socketAddr))
    | .panic message => .panic message

/-- The resolver of a pool that runs a script. -/
def resolverCode (pool : UInt64) (script : List PeerAct) : Resolver Data World :=
  .call .req fun req => .world (·.emit (.resolver pool req)) fun _ => peerScriptCode script

end EngineBridge.Scenario
