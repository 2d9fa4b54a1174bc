import EngineBridge.Worker.Basic

/-! The end of a worker. -/

namespace EngineBridge.State
variable {δ ω : Type}

/-- Drops a worker. The closures in its queue and those that wait for subrequests are destroyed; the
    queue remains, for handles that still push onto it. -/
def close (s : State δ ω) : Shared δ ω :=
  let (parcels, queue) := s.shared.queue.drain
  let tickets := parcels.map Parcel.ticket ++ s.worker.subrequests.values.map Pending.ticket
  tickets.foldl (fun s ticket => s.record (.destroyed ticket)) { s.shared with queue }

end EngineBridge.State
