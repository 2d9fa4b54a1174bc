import EngineBridge.Queue.Capacity

/-! A bounded queue in a ring of slots. Each slot carries a sequence number, and positions count up
    through all laps of the ring as words that wrap. A slot is free for the push at position `pos` when
    its sequence is `pos`, and holds the value pushed there when it is `pos + 1`; taking the value makes
    it free for the next lap. No count of the values is kept. -/

namespace EngineBridge.Queue

/-- A slot of the ring. -/
structure Slot (α : Type) where
  sequence : UInt64
  value : Option α

/-- A ring of slots. Values lie between the positions `head` and `tail`. -/
structure Ring (α : Type) where
  order : Nat
  slots : Vector (Slot α) (size order)
  head : UInt64
  tail : UInt64
  /-- How often a push looks for a free slot, at least once. -/
  attempts : Nat

namespace Ring
variable {α : Type}

/-- An empty ring with room for the requested number of values. -/
def new (requested : UInt64) (retries : UInt32) : Ring α where
  order := Queue.order requested
  slots := Vector.ofFn fun i => ⟨UInt64.ofNat i.val, none⟩
  head := 0
  tail := 0
  attempts := max retries.toNat 1

/-- How many values the ring has room for. -/
def capacity (r : Ring α) : Nat := size r.order

theorem capacity_pos (r : Ring α) : 0 < r.capacity := size_pos r.order

/-- The slot of a position. -/
def index (r : Ring α) (pos : UInt64) : Fin (size r.order) :=
  ⟨pos.toNat % size r.order, Nat.mod_lt _ (size_pos r.order)⟩

/-- What a push finds in the slot of a position: room, a value of the lap before, or the trace of a
    push that has come first. -/
inductive Look
  | free
  | occupied
  | overtaken
deriving DecidableEq, Repr

/-- Compares the sequence of a slot with the position for which it is wanted. -/
def look (r : Ring α) (pos : UInt64) : Look :=
  let ahead := (r.slots[r.index pos].sequence - pos).toInt64
  if ahead = 0 then .free else if ahead < 0 then .occupied else .overtaken

/-- The ring with a value written at a position, which becomes the last one. -/
def write (r : Ring α) (pos : UInt64) (value : α) : Ring α :=
  { r with
    slots := r.slots.set (r.index pos) ⟨pos + 1, some value⟩
    tail := pos + 1 }

/-- Looks for a free slot up to the given number of times, from a position on, and writes a value
    there; without one it hands the value back. -/
def pushWithin (r : Ring α) (value : α) :
    (attempts : Nat) → (pos : UInt64) → Except α Unit × Ring α
  | 0, _ => (.error value, r)
  | n + 1, pos =>
    match r.look pos with
    | .free => (.ok (), r.write pos value)
    | .occupied => (.error value, r)
    | .overtaken => r.pushWithin value n r.tail

/-- Adds a value at the end, or hands it back. -/
def push (r : Ring α) (value : α) : Except α Unit × Ring α := r.pushWithin value r.attempts r.tail

/-- The ring with the slot at its head made free for the next lap. -/
def release (r : Ring α) : Ring α :=
  { r with
    slots := r.slots.set (r.index r.head) ⟨r.head + UInt64.ofNat r.capacity, none⟩
    head := r.head + 1 }

/-- Takes the oldest value, if its push is complete. -/
def pop (r : Ring α) : Option α × Ring α :=
  let slot := r.slots[r.index r.head]
  if slot.sequence = r.head + 1 then (slot.value, r.release) else (none, r)

/-- How many values are held. -/
def length (r : Ring α) : Nat := min (r.tail - r.head).toNat r.capacity

/-- The values from a position on, up to the first slot that is not ready, `limit` at most. -/
def readyFrom (r : Ring α) : (limit : Nat) → (pos : UInt64) → List α
  | 0, _ => []
  | n + 1, pos =>
    let slot := r.slots[r.index pos]
    if slot.sequence = pos + 1 then slot.value.toList ++ r.readyFrom n (pos + 1) else []

/-- The values that are destroyed with the ring, oldest first. The walk ends at the first slot that is
    not ready, which is at the latest the slot it began with. -/
def held (r : Ring α) : List α := r.readyFrom (r.capacity + 1) r.head

end Ring
end EngineBridge.Queue
