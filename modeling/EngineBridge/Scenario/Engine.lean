import EngineBridge.Scenario.World
import EngineBridge.Text.Parts
import EngineBridge.Text.Utf8

/-! The scripted engine. It knows a set of requests, records the calls that change something, and fails
    or panics where it has been told to. -/

namespace EngineBridge.Scenario

/-- The data of a scenario's worker. -/
abbrev Data := List String

namespace World

/-- What is answered to a call, unless it panics, and the world after it. -/
abbrev Result (α : Type) := Except String α × World

/-- Reads from a request that the engine knows. Any other one makes the call panic. -/
def read {α : Type} (w : World) (req : ReqId) (f : Known → α) : Result α :=
  match w.known[req]? with
  | some k => (.ok (f k), w)
  | none => (.error ("mock engine: unknown request " ++ req.text), w)

/-- Ends a call that can fail as it is told to, recording it with its code unless it panics. -/
def end? (w : World) (f : Fallible) (event : Int32 → Event) : Result (Except EngineError Unit) :=
  match w.takeEnding f with
  | (.panic, w) => (.error ("mock engine: " ++ f.name ++ " panicked"), w)
  | (.code rc, w) => (.ok (if rc = 0 then .ok () else .error ⟨rc⟩), w.emit (event rc))

/-- The request at the head of the chain that a request belongs to. -/
def mainOf (w : World) (req : ReqId) : Result ReqId := w.read req fun k => k.main.getD req

/-- Logs a line. -/
def log (w : World) (level : Log.Level) (line : String) : Result Unit :=
  let w := w.emit (.log level line)
  if w.panicLog.any fun part => Text.occursIn part.toList line.toList then
    (.error "mock engine: log panicked", w)
  else (.ok (), w)

/-- Ends a request. The call is recorded even if it panics. -/
def finalize (w : World) (req : ReqId) (rc : Int32) : Result Unit :=
  match (w.emit (.finalize req rc)).takeEnding .finalize with
  | (.panic, w) => (.error "mock engine: finalize panicked", w)
  | (.code _, w) => (.ok (), w)

/-- Makes an anchor. -/
def newAnchor (w : World) (server : UInt64) : Result (Except EngineError ReqId) :=
  match w.takeEnding .anchor with
  | (.panic, w) => (.error "mock engine: anchor panicked", w)
  | (.code rc, w) =>
    if rc = 0 then
      let (id, w) := w.addRequest {}
      (.ok (.ok id), w.emit (.anchor server (some id) rc))
    else (.ok (.error ⟨rc⟩), w.emit (.anchor server none rc))

/-- Makes the child of a subrequest. The token is noted even if no child comes of it. -/
def subrequest (w : World) (parent : ReqId) (request : ChildRequest) (token : SubToken) :
    Result (Except EngineError ReqId) :=
  let sub := w.subs.size
  match { w with subs := w.subs.push ⟨token, none, false⟩ }.takeEnding .subrequest with
  | (.panic, w) => (.error "mock engine: subrequest panicked", w)
  | (.code rc, w) =>
    if rc = 0 then
      match w.mainOf parent with
      | (.error message, w) => (.error message, w)
      | (.ok main, w) =>
        let encode (h : String × String) : Bytes × Bytes := (Utf8.encode h.1, Utf8.encode h.2)
        let (id, w) := w.addRequest
          { method := request.method.mask
            uri := Utf8.encode request.uri
            args := request.args.map Utf8.encode
            headers := request.headers.map encode
            main := some main }
        let w := { w with subs := w.subs.modify sub fun s => { s with child := some id } }
        (.ok (.ok id), w.emit (.subrequest parent (some id) request rc))
    else (.ok (.error ⟨rc⟩), w.emit (.subrequest parent none request rc))

/-- Whether a subrequest belongs to a request's chain and has a child that has not completed. -/
def isPosted (w : World) (req : ReqId) (sub : Sub) : Bool :=
  !sub.completed && (sub.child.bind fun c => w.known[c]?.bind (·.main)) == some req

/-- Has the children of a request's chain completed by tasks, if children are to be run at once. -/
def runPosted (w : World) (req : ReqId) : Result (List (Task Data World)) :=
  let w := w.emit (.runPosted req)
  match w.completePosted with
  | none => (.ok [], w)
  | some p =>
    let due := (List.range w.subs.size).filter fun i => w.subs[i]?.any (w.isPosted req)
    let complete (i : Nat) : Option (Task Data World) := w.subs[i]?.map fun s =>
      .world (·.emit (.postedDone i)) fun _ =>
        .hook (.subrequestDone s.token (p.completion s.child)) fun _ => .done
    (.ok (due.filterMap complete), due.foldl markCompleted w)

end World

/-- The scripted engine. -/
def engine : Engine Data World := fun c w =>
  match c with
  | .log level line => w.log level line
  | .location req => w.read req (·.location)
  | .method req => w.read req (·.method)
  | .uri req => w.read req (·.uri)
  | .args req => w.read req (·.args)
  | .headers req => w.read req (·.headers)
  | .readBody req => w.read req (·.read)
  | .body req => w.read req (·.body)
  | .mainOf req => w.mainOf req
  | .setStatus req code => (.ok (), w.emit (.setStatus req code))
  | .addHeader req name value => w.end? .addHeader (.addHeader req name value ·)
  | .setContentLength req length => (.ok (), w.emit (.contentLength req length))
  | .setHeaderOnly req => (.ok (), w.emit (.headerOnly req))
  | .sendHeader req => w.end? .sendHeader (.sendHeader req ·)
  | .output req chunk => w.end? .output (.output req chunk ·)
  | .finalize req rc => w.finalize req rc
  | .subrequest parent child token => w.subrequest parent child token
  | .newAnchor server => w.newAnchor server
  | .runPosted req => w.runPosted req
  | .setPeer req peer => w.end? .setPeer (.setPeer req peer ·)

end EngineBridge.Scenario
