import EngineBridge.Queue.Channel

/-! What the users of a queue can ask for, one after another, and the functions that answer. A queue has
    one receiver and a sender that can be cloned; every clone pushes into the same queue. -/

namespace EngineBridge.Queue

/-- The two ends of a queue. -/
inductive End
  | sender
  | receiver
deriving DecidableEq, Repr

/-- A request to a queue. The senders are numbered: the first one, then its clones. -/
inductive Op (α : Type)
  | push (sender : Nat) (value : α)
  | pop
  | length
  | isEmpty
  | capacity (of : End)

/-- The answer to a request. A push that is refused hands a value back. -/
inductive Answer (α : Type)
  | pushed (result : Except α Unit)
  | popped (value : Option α)
  | count (n : Nat)
  | flag (b : Bool)

/-- The functions of a kind of queue. -/
structure Functions (Q α : Type) where
  push : Q → α → Except α Unit × Q
  pop : Q → Option α × Q
  length : Q → Nat
  isEmpty : Q → Bool
  capacity : Q → Nat

namespace Functions
variable {Q α : Type}

/-- Answers a request. -/
def answer (f : Functions Q α) (q : Q) : Op α → Answer α × Q
  | .push _ value => (f.push q value).map .pushed id
  | .pop => (f.pop q).map .popped id
  | .length => (.count (f.length q), q)
  | .isEmpty => (.flag (f.isEmpty q), q)
  | .capacity _ => (.count (f.capacity q), q)

/-- Answers requests in turn. -/
def answers (f : Functions Q α) (q : Q) : List (Op α) → List (Answer α)
  | [] => []
  | op :: ops => (f.answer q op).1 :: f.answers (f.answer q op).2 ops

end Functions

/-- The functions of a queue over either store. -/
def Channel.functions {α : Type} : Functions (Channel α) α where
  push := Channel.push
  pop := Channel.pop
  length := Channel.length
  isEmpty := Channel.isEmpty
  capacity := Channel.capacity

/-- The functions of a ring. -/
def Ring.functions {α : Type} : Functions (Ring α) α where
  push := Ring.push
  pop := Ring.pop
  length := Ring.length
  isEmpty r := r.length == 0
  capacity := Ring.capacity

/-- The functions of a list with a bound. -/
def Bounded.functions {α : Type} : Functions (Bounded α) α where
  push := Bounded.push
  pop := Bounded.pop
  length := Bounded.length
  isEmpty q := q.items.isEmpty
  capacity := Bounded.capacity

/-- A bounded queue of a library: it is made for a number of values, and its own functions answer. -/
structure ArrayQueue (Q α : Type) extends Functions Q α where
  new : Nat → Q

/-- An empty queue of a library's kind with room for the requested number of values. It does not count
    attempts. -/
def ArrayQueue.channel {Q α : Type} (a : ArrayQueue Q α) (requested : UInt64) (_retries : UInt32) : Q :=
  a.new (size (order requested))

/-- The list with a bound as such a queue. -/
def Bounded.arrayQueue {α : Type} : ArrayQueue (Bounded α) α where
  toFunctions := Bounded.functions
  new capacity := ⟨capacity, []⟩

end EngineBridge.Queue
