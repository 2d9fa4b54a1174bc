/-! The sizes that a queue can have. A requested size is rounded up to a power of two, and two is the
    least. -/

namespace EngineBridge.Queue

/-- The exponent of the least power of two that is at least two and at least the requested size. -/
def order (requested : UInt64) : Nat := (max requested.toNat 2 - 1).log2 + 1

/-- The size of the queue that a request leads to, as a word: all bits up to the top bit of one less
    than the request, plus one. -/
def roundUp (requested : UInt64) : UInt64 :=
  let last := max requested 2 - 1
  (0xFFFFFFFFFFFFFFFF >>> (63 - last.log2)) + 1

/-- The size with an exponent. -/
def size (order : Nat) : Nat := 1 <<< order

theorem size_pos (order : Nat) : 0 < size order := by
  rw [size, Nat.one_shiftLeft]
  exact Nat.two_pow_pos order

theorem one_le_order (requested : UInt64) : 1 ≤ order requested := Nat.le_add_left 1 _

end EngineBridge.Queue
