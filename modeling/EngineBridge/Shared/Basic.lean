import EngineBridge.Config
import EngineBridge.Journal
import EngineBridge.Queue.Channel

/-! What a worker shares with the threads that hold handles to it: the queue, the count of failed
    pushes, the offloads whose threads are still running, and the world. It outlives the worker. -/

namespace EngineBridge

/-- A closure in the queue with its ticket. -/
structure Parcel (δ ω : Type) where
  ticket : Nat
  work : Work δ ω

/-- An offload whose thread is still running: the work it does, and the closure that is pushed with its
    result onto the queue of the worker it came from. -/
structure Offload (δ ω : Type) where
  ticket : Nat
  target : Resumer
  work : String → Except String String
  done : Except String String → Callback δ ω

/-- The name of the thread that an offload runs on. -/
def Offload.threadName {δ ω : Type} (o : Offload δ ω) : String := "offload-" ++ o.target.req.text

/-- The state on both sides of the queue. -/
structure Shared (δ ω : Type) where
  queue : Queue.Channel (Parcel δ ω)
  /-- How many pushes have failed so far, which comes round as a word does. -/
  failed : UInt64
  /-- The offloads in the order of their making, each until its thread has ended. -/
  offloads : Array (Option (Offload δ ω))
  world : ω
  /-- The ticket of the next closure that is handed over. -/
  nextTicket : Nat
  journal : Journal

/-- What wakes the event loop. -/
abbrev Waker (ω : Type) := ω → ω

namespace Shared
variable {δ ω : Type}

/-- The state before the first push. -/
def new (store : Queue.Store) (config : Config) (world : ω) : Shared δ ω where
  queue := .new store config.queueCapacity config.pushRetries
  failed := 0
  offloads := #[]
  world := world
  nextTicket := 0
  journal := []

/-- Writes an entry into the journal. -/
def record (s : Shared δ ω) (e : Entry) : Shared δ ω := { s with journal := e :: s.journal }

/-- Takes a closure over and gives it the next ticket. -/
def hand (s : Shared δ ω) : Nat × Shared δ ω :=
  (s.nextTicket, { s with nextTicket := s.nextTicket + 1 }.record (.handed s.nextTicket))

/-- Puts a closure into the queue, if there is room. -/
def enqueue (s : Shared δ ω) (p : Parcel δ ω) : Bool × Shared δ ω :=
  let (pushed, queue) := s.queue.push p
  let s := { s with queue }
  match pushed with
  | .ok () => (true, s.record (.queued p.ticket))
  | .error p => (false, s.record (.refused p.ticket))

/-- Takes the oldest closure from the queue. -/
def take (s : Shared δ ω) : Option (Parcel δ ω) × Shared δ ω :=
  let (taken, queue) := s.queue.pop
  let s := { s with queue }
  match taken with
  | some p => (some p, s.record (.taken p.ticket))
  | none => (none, s)

/-- Counts a failed push. -/
def countFailed (s : Shared δ ω) : Shared δ ω := { s with failed := s.failed + 1 }

/-- Wakes the event loop. -/
def wake (waker : Waker ω) (s : Shared δ ω) : Shared δ ω :=
  { s with world := waker s.world }.record .woken

/-- Sends a closure to the worker: puts it into the queue, counts it if it is refused, and wakes the
    event loop either way, so that the worker comes to report the failure. A refused closure is
    destroyed. -/
def send (waker : Waker ω) (s : Shared δ ω) (p : Parcel δ ω) : Bool × Shared δ ω :=
  match s.enqueue p with
  | (true, s) => (true, s.wake waker)
  | (false, s) => (false, (s.countFailed.wake waker).record (.destroyed p.ticket))

/-- Hands a closure over and sends it to the worker. -/
def push (waker : Waker ω) (s : Shared δ ω) (work : Work δ ω) : Bool × Shared δ ω :=
  let (ticket, s) := s.hand
  s.send waker ⟨ticket, work⟩

/-- Lets the thread of an offload do its work and end: its result goes with the waiting closure to the
    worker. Answers whether the thread was still running. -/
def awaitOffload (waker : Waker ω) (s : Shared δ ω) (index : Nat) : Bool × Shared δ ω :=
  match s.offloads[index]?.join with
  | some o =>
    let s := { s with offloads := s.offloads.setIfInBounds index none }
    let code := o.done (o.work o.threadName)
    (true, (s.send waker ⟨o.ticket, .continuation o.target code⟩).2)
  | none => (false, s)

/-- Lets the threads of all offloads end, the oldest first. -/
def awaitAll (waker : Waker ω) (s : Shared δ ω) : Shared δ ω :=
  (List.range s.offloads.size).foldl (fun s i => (s.awaitOffload waker i).2) s

/-- Destroys the closures that the queue still holds, with the queue. -/
def close (s : Shared δ ω) : Shared δ ω :=
  s.queue.held.foldl (fun s p => s.record (.destroyed p.ticket)) s

end Shared
end EngineBridge
