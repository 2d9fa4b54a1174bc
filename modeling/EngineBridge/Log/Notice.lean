import EngineBridge.Error
import EngineBridge.Log.Level
import EngineBridge.Peer
import EngineBridge.Request.Outcome

/-! What there is to log: lines of application code, and the causes for which the bridge itself logs,
    each with its severity and its text. -/

namespace EngineBridge.Log

/-- Why a line is logged. -/
inductive Notice
  /-- Application code logs a text of its own. -/
  | application (level : Level) (text : String)
  | noHandler (location : Option UInt64)
  | bodyReadFailed (rc : Int32)
  | bodyUnexpected
  | bodyInFile
  | handlerFailed (cause : String)
  | continuationReleased
  | continuationFinalized
  | continuationUntimely (phase : Phase)
  | finalizedBefore
  | releasedBefore
  | subrequestNotCreated (cause : EngineError)
  | callerGone
  | callbackFailed (cause : String)
  | noResolver (pool : UInt64)
  | noServer (pool : UInt64)
  | resolverFailed (pool : UInt64) (cause : String)
  | peerNotStored (peer : Peer) (cause : EngineError)
  | taskPanicked (cause : String)
  | pushesLost (count : UInt64)
deriving DecidableEq, Repr

namespace Notice

/-- The severity of a line. -/
def level : Notice → Level
  | application level _ => level
  | noHandler _ | bodyReadFailed _ | bodyInFile | handlerFailed _ | subrequestNotCreated _
  | callbackFailed _ | noResolver _ | resolverFailed _ _ | peerNotStored _ _ | taskPanicked _ => .error
  | bodyUnexpected | continuationReleased | finalizedBefore | releasedBefore | callerGone
  | noServer _ => .warn
  | continuationFinalized | continuationUntimely _ => .alert
  | pushesLost _ => .crit

/-- The written form of the location a request was routed to. -/
def locationText : Option UInt64 → String
  | some location => toString location.toNat
  | none => "(none)"

/-- The text of a line. -/
def text : Notice → String
  | application _ text => text
  | noHandler location => "unable to find handler related to the location " ++ locationText location
  | bodyReadFailed rc => "failed to read request body: engine returned " ++ toString rc.toInt
  | bodyUnexpected => "body ready for a request that is not registered"
  | bodyInFile => "req body is not in memory"
  | handlerFailed cause => "failed to handle the request: " ++ cause
  | continuationReleased => "dropping continuation for a request that has been released"
  | continuationFinalized => "continuation for a finalized request rejected"
  | continuationUntimely phase =>
    "continuation for a request in phase " ++ phase.name ++ " rejected"
  | finalizedBefore => "finalize skipped, request already finalized"
  | releasedBefore => "finalize skipped, request has been released"
  | subrequestNotCreated cause => "failed to create subrequest: " ++ cause.message
  | callerGone => "subrequest completed after its caller went away"
  | callbackFailed cause => "subrequest callback failed: " ++ cause
  | noResolver pool =>
    "unable to find handler related to the upstream " ++ toString pool.toNat
  | noServer pool => "no server provided for upstream " ++ toString pool.toNat
  | resolverFailed pool cause =>
    "failed to provide server for upstream " ++ toString pool.toNat ++ ": " ++ cause
  | peerNotStored peer cause => "failed to store peer " ++ peer.text ++ ": " ++ cause.message
  | taskPanicked cause => "worker task panicked: " ++ cause
  | pushesLost count =>
    "an async task was unable to be enqueued (" ++ toString count.toNat ++ " lost since last tick)"

end Notice
end EngineBridge.Log
