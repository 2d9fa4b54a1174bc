import EngineBridge.Queue.Channel

/-! A queue of numbers put through a list of requests. A value that is popped, or handed back by a push,
    is destroyed at once; what is left goes with the queue. -/

namespace EngineBridge.Queue.Session

/-- One request to a queue. A push may go through the sender, a clone of it or another thread. -/
inductive Request
  | push (value : Int)
  | pushAll (values : List Int)
  | pushRun (first : Int) (count : Nat)
  | pop
  | popRun (count : Nat)
  | drain
  | length
  | isEmpty
  | capacity
  | destroyed
  | dropSender

/-- The answer to a request. -/
inductive Answer
  | accepted
  | handedBack (value : Int)
  | flag (b : Bool)
  | flags (bs : List Bool)
  | count (n : Nat)
  | value (v : Option Int)
  | values (vs : List (Option Int))
  | drained (vs : List Int)
  | nothing

/-- A queue and the number of its values destroyed so far. -/
structure State where
  channel : Channel Int
  destroyed : Nat

namespace State

/-- Pushes a value; one that is handed back is destroyed. -/
def push : State → Int → Except Int Unit × State
  | ⟨channel, destroyed⟩, value =>
    match channel.push value with
    | (.ok (), channel) => (.ok (), ⟨channel, destroyed⟩)
    | (.error value, channel) => (.error value, ⟨channel, destroyed + 1⟩)

/-- Pushes values in turn, telling of each whether it was accepted. -/
def pushAll (s : State) : List Int → List Bool × State
  | [] => ([], s)
  | value :: values =>
    let (r, s) := s.push value
    let (bs, s) := s.pushAll values
    (r.toBool :: bs, s)

/-- Pops a value, which is destroyed. -/
def pop : State → Option Int × State
  | ⟨channel, destroyed⟩ =>
    match channel.pop with
    | (some value, channel) => (some value, ⟨channel, destroyed + 1⟩)
    | (none, channel) => (none, ⟨channel, destroyed⟩)

/-- Pops a number of times. -/
def popRun (s : State) : Nat → List (Option Int) × State
  | 0 => ([], s)
  | n + 1 =>
    let (v, s) := s.pop
    let (vs, s) := s.popRun n
    (v :: vs, s)

/-- Pops all values, which are destroyed. -/
def drain : State → List Int × State
  | ⟨channel, destroyed⟩ =>
    let (vs, channel) := channel.drain
    (vs, ⟨channel, destroyed + vs.length⟩)

/-- Answers one request. -/
def answer (s : State) : Request → Answer × State
  | .push value =>
    match s.push value with
    | (.ok (), s) => (.accepted, s)
    | (.error value, s) => (.handedBack value, s)
  | .pushAll values => let (bs, s) := s.pushAll values; (.flags bs, s)
  | .pushRun first count =>
    let (bs, s) := s.pushAll ((List.range count).map fun (n : Nat) => first + Int.ofNat n)
    (.count (bs.count true), s)
  | .pop => let (v, s) := s.pop; (.value v, s)
  | .popRun count => let (vs, s) := s.popRun count; (.values vs, s)
  | .drain => let (vs, s) := s.drain; (.drained vs, s)
  | .length => (.count s.channel.length, s)
  | .isEmpty => (.flag s.channel.isEmpty, s)
  | .capacity => (.count s.channel.capacity, s)
  | .destroyed => (.count s.destroyed, s)
  | .dropSender => (.nothing, s)

/-- Answers requests in turn. -/
def answerAll (s : State) : List Request → List Answer × State
  | [] => ([], s)
  | r :: rs =>
    let (a, s) := s.answer r
    let (as, s) := s.answerAll rs
    (a :: as, s)

end State

/-- The answers to a list of requests to a new queue, and how many values have been destroyed once the
    queue is gone too. -/
def run (store : Store) (requested : UInt64) (retries : UInt32) (rs : List Request) :
    List Answer × Nat :=
  let (as, s) := State.answerAll ⟨.new store requested retries, 0⟩ rs
  (as, s.destroyed + s.channel.held.length)

end EngineBridge.Queue.Session
