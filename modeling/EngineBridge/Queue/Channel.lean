import EngineBridge.Queue.Bounded
import EngineBridge.Queue.Ring

/-! The queue between the threads that push and the one that pops, over either of two stores. The
    stores answer alike. -/

namespace EngineBridge.Queue

/-- Where the values of a queue are kept. -/
inductive Store
  | ring
  | array
deriving DecidableEq, Repr

/-- A queue of either kind. -/
inductive Channel (α : Type)
  | ring (r : Ring α)
  | array (q : Bounded α)

namespace Channel
variable {α : Type}

/-- An empty queue with room for the requested number of values. Only the ring counts attempts. -/
def new (store : Store) (requested : UInt64) (retries : UInt32) : Channel α :=
  match store with
  | .ring => .ring (.new requested retries)
  | .array => .array (.new requested)

/-- Adds a value at the end, or hands it back. -/
def push (c : Channel α) (value : α) : Except α Unit × Channel α :=
  match c with
  | .ring r => (r.push value).map id .ring
  | .array q => (q.push value).map id .array

/-- Takes the oldest value. -/
def pop (c : Channel α) : Option α × Channel α :=
  match c with
  | .ring r => r.pop.map id .ring
  | .array q => q.pop.map id .array

/-- How many values are held. -/
def length : Channel α → Nat
  | .ring r => r.length
  | .array q => q.length

/-- Whether no value is held. -/
def isEmpty (c : Channel α) : Bool := c.length == 0

/-- How many values there is room for. -/
def capacity : Channel α → Nat
  | .ring r => r.capacity
  | .array q => q.capacity

/-- The values that are destroyed with the queue, oldest first. -/
def held : Channel α → List α
  | .ring r => r.held
  | .array q => q.items

/-- Takes values until there is none, `limit` at most. -/
def popAll (c : Channel α) : (limit : Nat) → List α × Channel α
  | 0 => ([], c)
  | n + 1 =>
    match c.pop with
    | (some value, c) => let (values, c) := c.popAll n; (value :: values, c)
    | (none, c) => ([], c)

/-- Takes all values. -/
def drain (c : Channel α) : List α × Channel α := c.popAll (c.capacity + 1)

end Channel
end EngineBridge.Queue
