import EngineBridge.Queue.Capacity

/-! A bounded queue as the list of its values, oldest first. -/

namespace EngineBridge.Queue

/-- A queue that holds at most `capacity` values. -/
structure Bounded (α : Type) where
  capacity : Nat
  items : List α
deriving DecidableEq, Repr

namespace Bounded
variable {α : Type}

/-- An empty queue with room for the requested number of values. -/
def new (requested : UInt64) : Bounded α := ⟨size (order requested), []⟩

/-- Adds a value at the end, or hands it back when there is no room. -/
def push (q : Bounded α) (value : α) : Except α Unit × Bounded α :=
  if q.items.length < q.capacity then (.ok (), { q with items := q.items ++ [value] })
  else (.error value, q)

/-- Takes the oldest value. -/
def pop (q : Bounded α) : Option α × Bounded α :=
  (q.items.head?, { q with items := q.items.tail })

/-- How many values are held. -/
def length (q : Bounded α) : Nat := q.items.length

theorem push_of_lt {q : Bounded α} {v : α} (h : q.length < q.capacity) :
    q.push v = (.ok (), { q with items := q.items ++ [v] }) := if_pos h

theorem push_of_le {q : Bounded α} {v : α} (h : q.capacity ≤ q.length) :
    q.push v = (.error v, q) := if_neg (Nat.not_lt.mpr h)

theorem length_push_le {q : Bounded α} {v : α} (h : q.length ≤ q.capacity) :
    (q.push v).2.length ≤ (q.push v).2.capacity := by
  rcases Nat.lt_or_ge q.length q.capacity with hlt | hge
  · rw [push_of_lt hlt]
    simp only [length, List.length_append, List.length_singleton] at hlt ⊢
    omega
  · rw [push_of_le hge]
    exact h

end Bounded
end EngineBridge.Queue
