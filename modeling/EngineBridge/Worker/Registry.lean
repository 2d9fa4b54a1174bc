import EngineBridge.Worker.Basic

/-! The registered requests of a worker, each in a slot of the arena and found by its name. -/

namespace EngineBridge

namespace Worker
variable {δ ω : Type}

/-- The registration of a request. -/
def registration? (w : Worker δ ω) (req : ReqId) : Option Registration :=
  w.slots[req]?.bind w.requests.get?

/-- Whether a registration is there and not over. -/
def isOpen (w : Worker δ ω) (req : ReqId) : Bool :=
  (w.registration? req).any fun r => r.phase ≠ .finalized

end Worker

namespace Registry
open EngineBridge.Action
variable {δ ω : Type}

/-- The next serial number. -/
def freshSerial : Action δ ω Nat := do
  let w ← worker
  modifyWorker fun w => { w with nextSerial := w.nextSerial + 1 }
  return w.nextSerial

/-- The registration in a slot. -/
def registration (slot : Nat) : Action δ ω Registration := do
  match (← worker).requests.get? slot with
  | some r => return r
  | none => raise "invalid key"

/-- Changes the registration in a slot. -/
def modifyRegistration (slot : Nat) (f : Registration → Registration) : Action δ ω Unit :=
  modifyWorker fun w => { w with requests := w.requests.modify slot f }

/-- Moves the registration in a slot to a phase. -/
def setPhase (slot : Nat) (phase : Phase) : Action δ ω Unit := do
  let r ← registration slot
  modifyRegistration slot fun r => { r with phase }
  record (.moved r.serial phase)

/-- Registers a request under a new serial number. Answers its slot. -/
def register (req : ReqId) (phase : Phase) (location : Option UInt64) (anchor : Bool) :
    Action δ ω Nat := do
  let serial ← freshSerial
  let slot := (← worker).requests.nextSlot
  let r : Registration := { id := req, serial, phase, location, anchor }
  modifyWorker fun w =>
    { w with requests := w.requests.insert r, slots := w.slots.insert req slot }
  record (.registered serial req slot phase)
  return slot

/-- Removes the registration that a request's name leads to. -/
def unregister (req : ReqId) : Action δ ω Unit := do
  let w ← worker
  match w.slots[req]? with
  | some slot =>
    let r ← registration slot
    modifyWorker fun w => { w with requests := w.requests.remove slot, slots := w.slots.erase req }
    record (.removed r.serial)
  | none => return ()

/-- The slot of a request that is registered. -/
def slotOf? (req : ReqId) : Action δ ω (Option Nat) := return (← worker).slots[req]?

/-- The slot of a request that is registered and not over. -/
def openSlot? (req : ReqId) : Action δ ω (Option Nat) := do
  match ← slotOf? req with
  | some slot => return if (← registration slot).phase = .finalized then none else some slot
  | none => return none

end Registry
end EngineBridge
