import EngineBridge.Method
import EngineBridge.Peer
import EngineBridge.ReqId
import EngineBridge.Text.Ascii

/-! Requests that application code issues itself, and what becomes of them. -/

namespace EngineBridge

/-- What the engine needs to make a child request. -/
structure ChildRequest where
  method : Method
  uri : String
  args : Option String
  headers : List (String × String)
  body : Option Bytes
deriving DecidableEq, Repr

/-- A child request as application code describes it. -/
structure Subrequest extends ChildRequest where
  /-- Where the child is sent, whatever the resolver of its pool says. -/
  target : Option Net.SocketAddr
  /-- The request against which the callback runs instead of the root. -/
  main : Option ReqId
deriving DecidableEq, Repr

/-- The name of a subrequest that has not completed: its slot and its serial number. -/
structure SubToken where
  slot : Nat
  serial : Nat
deriving DecidableEq, Repr

/-- The written form of a token. -/
def SubToken.text (t : SubToken) : String :=
  "SubToken \x7b key: " ++ toString t.slot ++ ", serial: " ++ toString t.serial ++ " \x7d"

/-- How a child ended: the engine's code, the response status and the response body. -/
structure Completion where
  child : ReqId
  rc : Int32
  status : UInt16
  body : Bytes
deriving DecidableEq, Repr

end EngineBridge
