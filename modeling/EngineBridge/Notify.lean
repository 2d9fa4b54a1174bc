/-! A channel for waking a waiting thread. Sending never blocks; waiting blocks until something has been
    sent since the wait before, and takes all of it in. -/

namespace EngineBridge

/-- How often the channel has been sent to, as a word that wraps, and up to where the receiver has
    seen. -/
structure Notify where
  sent : UInt64
  seen : UInt64
deriving DecidableEq, Repr

namespace Notify

/-- The channel before the first send. -/
def new : Notify := ⟨0, 0⟩

/-- Sends. -/
def send (n : Notify) : Notify := { n with sent := n.sent + 1 }

/-- Whether a wait would block. -/
def blocks (n : Notify) : Bool := n.sent == n.seen

/-- The channel after a wait, if that does not block. -/
def wait? (n : Notify) : Option Notify := if n.blocks then none else some { n with seen := n.sent }

theorem blocks_send_iff (n : Notify) : n.send.blocks = true ↔ n.sent + 1 = n.seen := by
  simp [blocks, send]

theorem blocks_of_wait? {n m : Notify} (h : n.wait? = some m) : m.blocks = true := by
  unfold wait? at h
  split at h
  · exact absurd h (by simp)
  · cases h
    simp [blocks]

end Notify
end EngineBridge
