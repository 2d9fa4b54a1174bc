import EngineBridge.Error
import EngineBridge.Log.Filter
import EngineBridge.Queue.Capacity

/-! The settings of a worker, which are fixed when it is opened. -/

namespace EngineBridge

/-- The settings of a worker. -/
structure Config where
  /-- Names the worker in log records. -/
  workerId : UInt32 := 0
  /-- How many tasks the queue is asked to hold. -/
  queueCapacity : UInt64 := 4096
  /-- How often a push tries to claim a slot before it gives up. -/
  pushRetries : UInt32 := 8
  /-- The severities that are logged at first. -/
  filter : Log.Filter := .upTo .info
deriving DecidableEq, Repr

namespace Config

/-- Refuses a queue without room, and after that pushes without a try. -/
def validate (c : Config) : Except Error Unit :=
  if c.queueCapacity = 0 then .error (.config "queue_capacity must be non-zero")
  else if c.pushRetries = 0 then .error (.config "push_retries must be non-zero")
  else .ok ()

/-- How many tasks the queue holds. -/
def effectiveCapacity (c : Config) : UInt64 := Queue.roundUp c.queueCapacity

end Config
end EngineBridge
