/-! What application code answers for a request, and the course of a request's life. -/

namespace EngineBridge

/-- What application code tells the bridge to do with its request. -/
inductive Outcome
  /-- Finalize it with the status that has been set. -/
  | ok
  /-- Finalize it with this status. -/
  | status (code : UInt16)
  /-- Leave it open for a later continuation or subrequest callback. -/
  | async
deriving DecidableEq, Repr

/-- The code with which the engine is told to finalize. -/
def Outcome.rc : Outcome → Int32
  | ok => 0
  | status code => Int32.ofNat code.toNat
  | async => 0

/-- The written form of an outcome. -/
def Outcome.name : Outcome → String
  | ok => "Ok"
  | status code => "Status(" ++ toString code.toNat ++ ")"
  | async => "Async"

/-- How far a request has come. -/
inductive Phase
  /-- Its body has not been read yet. -/
  | received
  /-- Its handler is running; an anchor starts here. -/
  | handling
  /-- It waits for a continuation or for a subrequest. -/
  | suspended
  /-- A continuation or a subrequest callback is running. -/
  | resumed
  /-- It is over. -/
  | finalized
deriving DecidableEq, Repr

/-- The written form of a phase. -/
def Phase.name : Phase → String
  | received => "Received"
  | handling => "Handling"
  | suspended => "Suspended"
  | resumed => "Resumed"
  | finalized => "Finalized"

end EngineBridge
