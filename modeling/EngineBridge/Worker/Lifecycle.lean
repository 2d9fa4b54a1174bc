import EngineBridge.Worker.Callbacks

/-! The course of a request from its registration to its end. The engine is told once that a request is
    over, when its handler, a continuation or a subrequest callback has given a result other than
    `async`, or has failed. -/

namespace EngineBridge.Host
open EngineBridge.Action Registry
variable {δ ω : Type} (h : Host δ ω)

/-- Tells the engine that the request in a slot is over. -/
def finalize (slot : Nat) (rc : Int32) : Action δ ω Unit := do
  let r ← registration slot
  if r.phase = .finalized then raise ("request " ++ r.id.text ++ " finalized twice")
  else
    setPhase slot .finalized
    h.call r.serial (.finalize r.id rc)

/-- Tells the engine that a request is over, unless it is over already or no longer registered. -/
def finalizeId (req : ReqId) (rc : Int32) : Action δ ω Unit := do
  match ← slotOf? req with
  | some slot =>
    if (← registration slot).phase = .finalized then h.log .finalizedBefore (some req)
    else h.finalize slot rc
  | none => h.log .releasedBefore (some req)

/-- Acts on the result of a handler or continuation for the request in a slot. -/
def apply (slot : Nat) : Except String Outcome → Action δ ω Unit
  | .ok .async => do
    if (← registration slot).phase ≠ .finalized then setPhase slot .suspended
  | .ok outcome => h.finalize slot outcome.rc
  | .error message => do
    h.log (.handlerFailed message) (some (← registration slot).id)
    h.finalize slot 500

/-- Runs code against the request in a slot and acts on its result. -/
def runAs (slot : Nat) (role : Role) (code : Callback δ ω) : Action δ ω Unit := do
  record (.started role (← registration slot).serial)
  h.apply slot (← h.guarded (h.runCallback slot code))

/-- Runs the handler of the request in a slot. -/
def dispatch (slot : Nat) : Action δ ω Unit := do
  setPhase slot .handling
  match (← registration slot).location.bind h.routes.handler? with
  | some code => h.runAs slot .handler code
  | none => h.apply slot (.error "location handler disappeared")

/-- Ends the request in a slot, the engine having failed to read its body. The engine finalizes it
    itself, with the status that this answers. -/
def rejectBody (slot : Nat) (req : ReqId) (rc : Int32) : Action δ ω ContentPhase := do
  setPhase slot .finalized
  if 300 ≤ rc ∧ rc ≤ 65535 then return .status (UInt16.ofNat rc.toNatClampNeg)
  else
    h.log (.bodyReadFailed rc) (some req)
    return .status 500

/-- Has the engine read the body of a request that has just been registered. -/
def startBody (slot : Nat) (req : ReqId) : Action δ ω ContentPhase := do
  let r ← registration slot
  match ← h.call r.serial (.readBody req) with
  | .complete =>
    h.dispatch slot
    return .done
  | .pending => return .done
  | .failed rc => h.rejectBody slot req rc

/-- The engine has routed a request here. Its handler runs as soon as its body has been read. -/
def contentPhase (req : ReqId) : Action δ ω ContentPhase := do
  let location ← h.call none (.location req)
  if (location.bind h.routes.handler?).isNone then
    h.log (.noHandler location) (some req)
    return .status 500
  else
    unregister req
    let slot ← register req .received location false
    h.startBody slot req

/-- The body of a request has been read. -/
def bodyReady (req : ReqId) : Action δ ω Unit := do
  match ← slotOf? req with
  | some slot =>
    if (← registration slot).phase = .received then h.dispatch slot
    else raise ("handler for request " ++ req.text ++ " invoked more than once")
  | none => h.log .bodyUnexpected (some req)

/-- The engine has reclaimed a request. -/
def released (req : ReqId) : Action δ ω Unit := do
  unregister req
  modifyWorker fun w => { w with targets := w.targets.erase req }

/-- Makes a request that only hosts subrequests. -/
def newAnchor (server : UInt64) : Action δ ω (Except Error ReqId) := do
  match ← h.call none (.newAnchor server) with
  | .ok req =>
    discard (register req .handling none true)
    return .ok req
  | .error cause => return .error (.engine "create anchor request" cause)

/-- Runs a continuation against the registration it was made for. If that is gone, over or not at a
    point where it can be resumed, the continuation is destroyed. -/
def resume (target : Resumer) (ticket : Nat) (code : Callback δ ω) : Action δ ω Unit := do
  match ((← worker).requests.get? target.slot).filter (·.serial = target.serial) with
  | none =>
    record (.destroyed ticket)
    h.log .continuationReleased none
  | some r =>
    match r.phase with
    | .handling | .suspended =>
      setPhase target.slot .resumed
      record (.ran ticket)
      h.runAs target.slot (.continuation ticket) code
    | .finalized =>
      record (.destroyed ticket)
      h.log .continuationFinalized (some r.id)
    | .received | .resumed =>
      record (.destroyed ticket)
      h.log (.continuationUntimely r.phase) (some r.id)

/-- Ends the requests that a completed subrequest is to end: its root, then its main request. -/
def finalizeBoth (p : Pending δ ω) (rc : Int32) : Action δ ω Unit := do
  h.finalizeId p.root rc
  match p.main with
  | some main => if main ≠ p.root then h.finalizeId main rc
  | none => return ()

/-- Destroys the callback of a completed subrequest, the request it was to run against being gone or
    over. A root that is still open would never be ended by it, so it is ended here. -/
def abandon (p : Pending δ ω) : Action δ ω Unit := do
  record (.destroyed p.ticket)
  h.log .callerGone (some p.caller)
  if p.root ≠ p.caller ∧ (← openSlot? p.root).isSome then h.finalizeId p.root 500

/-- Moves the request in a slot on, if it waits. Answers whether it did. -/
def resumeWaiting (slot : Nat) : Action δ ω Bool := do
  if (← registration slot).phase = .suspended then
    setPhase slot .resumed
    return true
  else return false

/-- Acts on the result of a subrequest callback that has run against the request in a slot; `resumed`
    tells whether that request waited before. -/
def settle (p : Pending δ ω) (slot : Nat) (resumed : Bool) : Except String Outcome → Action δ ω Unit
  | .ok .async => do
    if resumed && (← registration slot).phase == .resumed then setPhase slot .suspended
  | .ok outcome => h.finalizeBoth p outcome.rc
  | .error message => do
    h.log (.callbackFailed message) (some p.caller)
    h.finalizeBoth p 500

/-- Runs the callback of a completed subrequest against the request in a slot. -/
def callBack (p : Pending δ ω) (slot : Nat) (completion : Completion) : Action δ ω Unit := do
  let resumed ← resumeWaiting slot
  record (.ran p.ticket)
  record (.started (.callback p.ticket) (← registration slot).serial)
  h.settle p slot resumed (← h.guarded (h.runCallback slot (p.done completion)))

/-- Acts on the completion of a subrequest whose record has been removed. -/
def complete (p : Pending δ ω) (completion : Completion) : Action δ ω Unit := do
  match ← openSlot? p.caller with
  | none => h.abandon p
  | some slot => h.callBack p slot completion

/-- Acts on the completion of a subrequest whose record has been removed, if its child was made. -/
def completeChild (p : Pending δ ω) (completion : Completion) : Action δ ω Unit := do
  match p.child with
  | none =>
    record (.destroyed p.ticket)
    raise "subrequest completion fired before the child was initialised"
  | some child =>
    modifyWorker fun w => { w with targets := w.targets.erase child }
    h.complete p completion

/-- The child of a subrequest has completed. The subrequest counts as live until all that follows from
    it has been done. -/
def subrequestDone (token : SubToken) (completion : Completion) : Action δ ω Unit := do
  match ((← worker).subrequests.get? token.slot).filter (·.serial = token.serial) with
  | none =>
    raise ("subrequest completion fired twice or for an unknown token: " ++ token.text)
  | some p =>
    removePending token.slot
    record (.completed token)
    (h.completeChild p completion).ensuring releaseLive

end EngineBridge.Host
