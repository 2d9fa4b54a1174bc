import EngineBridge.Engine.Call
import EngineBridge.Log.Notice

/-! What a worker and the handles to it have done, as a list of entries, latest first. The journal
    decides nothing; it tells what became of each closure handed to the bridge, and which calls, log
    lines and callbacks a run brought about, and in which order. -/

namespace EngineBridge

/-- As what a callback runs against a request. Continuations and subrequest callbacks are told apart by
    the ticket of their closure. -/
inductive Role
  | handler
  | continuation (ticket : Nat)
  | callback (ticket : Nat)
deriving DecidableEq, Repr

/-- One entry of the journal. Closures are named by the tickets they get when they are handed over,
    registrations by their serial numbers. -/
inductive Entry
  /-- A closure has been handed to the bridge. -/
  | handed (ticket : Nat)
  /-- A closure has been run. -/
  | ran (ticket : Nat)
  /-- A closure has been destroyed without having run. -/
  | destroyed (ticket : Nat)
  /-- The queue has taken a closure. -/
  | queued (ticket : Nat)
  /-- The queue has had no room for a closure. -/
  | refused (ticket : Nat)
  /-- The event loop has been woken for a push. -/
  | woken
  /-- A tick has taken a closure from the queue. -/
  | taken (ticket : Nat)
  /-- A request has been registered in a slot, at a point of its course. -/
  | registered (serial : Nat) (req : ReqId) (slot : Nat) (phase : Phase)
  /-- A registration has come to another point of its course. -/
  | moved (serial : Nat) (phase : Phase)
  /-- A registration has been removed. -/
  | removed (serial : Nat)
  /-- A callback has begun to run against a registration. -/
  | started (role : Role) (serial : Nat)
  /-- The engine has been called, on behalf of a registration if one is named. -/
  | called (serial : Option Nat) (call : Call) (upshot : Upshot)
  /-- A line has passed the filter. -/
  | logged (notice : Log.Notice) (req : Option ReqId)
  /-- A child has been made for a subrequest. -/
  | issued (token : SubToken) (child : ReqId)
  /-- The completion of a live subrequest has begun. -/
  | completed (token : SubToken)
deriving DecidableEq, Repr

/-- Entries, latest first. -/
abbrev Journal := List Entry

namespace Journal

/-- How many closures have been handed over. -/
def handedCount (j : Journal) : Nat := j.countP fun e => e matches .handed _

/-- How many closures have been run. -/
def ranCount (j : Journal) : Nat := j.countP fun e => e matches .ran _

/-- How many closures have been destroyed without having run. -/
def destroyedCount (j : Journal) : Nat := j.countP fun e => e matches .destroyed _

end Journal
end EngineBridge
