import EngineBridge.Worker.Host
import EngineBridge.Worker.Registry

/-! Subrequests and offloads, which take a closure from a request that is not over and run it later. -/

namespace EngineBridge.Host
open EngineBridge.Action Registry
variable {δ ω : Type} (h : Host δ ω)

/-- Takes a closure over. Answers its ticket. -/
def hand : Action δ ω Nat := shared Shared.hand

/-- Keeps the record of a subrequest, which counts as live from then on. Answers its slot. -/
def addPending (p : Pending δ ω) : Action δ ω Nat := do
  let slot := (← worker).subrequests.nextSlot
  modifyWorker fun w => { w with subrequests := w.subrequests.insert p, live := w.live + 1 }
  return slot

/-- Removes the record in a slot; the subrequest still counts as live. -/
def removePending (slot : Nat) : Action δ ω Unit :=
  modifyWorker fun w => { w with subrequests := w.subrequests.remove slot }

/-- Takes a subrequest out of the count of the live ones. -/
def releaseLive : Action δ ω Unit := modifyWorker fun w => { w with live := w.live - 1 }

/-- Notes the child of a subrequest, and where it is to be sent. -/
def setChild (token : SubToken) (target : Option Peer) (child : ReqId) : Action δ ω Unit := do
  modifyWorker fun w =>
    { w with
      subrequests := w.subrequests.modify token.slot fun p => { p with child := some child }
      targets := match target with
        | some peer => w.targets.insert child peer
        | none => w.targets }
  record (.issued token child)

/-- For an anchor, which no event of the engine is about, runs at once what the engine has posted, and
    pushes the tasks that this leaves. -/
def runPosted (r : Registration) : Action δ ω Unit := do
  if r.anchor then
    (← h.call r.serial (.runPosted r.id)).forM fun t => discard (h.push (.task t))

/-- Asks the engine for the child of a subrequest that has been recorded. The record goes again if the
    engine refuses. -/
def createChild (r : Registration) (sub : Subrequest) (ticket : Nat) (token : SubToken) :
    Action δ ω (Except Error SubToken) := do
  match ← h.call r.serial (.subrequest r.id sub.toChildRequest token) with
  | .ok child =>
    setChild token (sub.target.map Peer.ofSocketAddr) child
    h.runPosted r
    return .ok token
  | .error cause =>
    removePending token.slot
    record (.destroyed ticket)
    releaseLive
    h.log (.subrequestNotCreated cause) (some r.id)
    return .error (.engine "create subrequest" cause)

/-- Issues a subrequest from the request in a slot. Its record is there before the engine is asked for
    the child. -/
def sendRequest (slot : Nat) (sub : Subrequest) (done : Completion → Callback δ ω) :
    Action δ ω (Except Error SubToken) := do
  let r ← registration slot
  let ticket ← hand
  match r.checkLive with
  | .error e =>
    record (.destroyed ticket)
    return .error e
  | .ok () =>
    let serial ← freshSerial
    let root ← (h.call r.serial (.mainOf r.id)).onPanic (record (.destroyed ticket))
    let target := sub.target.map Peer.ofSocketAddr
    let slot ← addPending { serial, root, main := sub.main, target, child := none, ticket, done }
    h.createChild r sub ticket ⟨slot, serial⟩

/-- Starts a thread for work of the request in a slot. If there is none to be had, the closure goes with the
    work. -/
def offload (slot : Nat) (work : String → Except String String)
    (done : Except String String → Callback δ ω) : Action δ ω (Except Error Outcome) := do
  let r ← registration slot
  let ticket ← hand
  match r.checkLive with
  | .error e =>
    record (.destroyed ticket)
    return .error e
  | .ok () =>
    match ← h.startThread r.id with
    | .ok () =>
      let o : Offload δ ω := { ticket, target := ⟨slot, r.serial, r.id⟩, work, done }
      shared fun s => ((), { s with offloads := s.offloads.push (some o) })
      return .ok .async
    | .error cause =>
      record (.destroyed ticket)
      return .error (.spawn cause)

end EngineBridge.Host
