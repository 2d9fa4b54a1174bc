import EngineBridge.Code.Calls

/-! Application code, as trees of the calls it makes. A tree makes a call and goes on with what the call
    answers, so it can do whatever code with access to the bridge can do, and it ends. Besides the bridge
    it reaches the worker's data, of type `δ`, and the world outside, of type `ω`, which it shares with
    the engine. -/

namespace EngineBridge

mutual

/-- Code that runs against a request: a handler, a continuation or a subrequest callback. -/
inductive Callback (δ ω : Type)
  | finish (result : Except Fault Outcome)
  | panic (message : String)
  | call (c : RequestCall) (next : c.Result → Callback δ ω)
  /-- Changes the worker's data and goes on with what they were before. -/
  | data (change : δ → δ) (next : δ → Callback δ ω)
  /-- Changes the world and goes on with what it was before. -/
  | world (change : ω → ω) (next : ω → Callback δ ω)
  | sendRequest (sub : Subrequest) (done : Completion → Callback δ ω)
      (next : Except Error SubToken → Callback δ ω)
  /-- Gives work to a thread of its own, which is called by the name it gets. -/
  | offload (work : String → Except String String) (done : Except String String → Callback δ ω)
      (next : Except Error Outcome → Callback δ ω)
  | push (work : Work δ ω) (next : Bool → Callback δ ω)
  | failedCount (next : UInt64 → Callback δ ω)
  /-- Waits for the thread of an offload to end. -/
  | awaitOffload (index : Nat) (next : Bool → Callback δ ω)

/-- Code that runs against the worker. -/
inductive Task (δ ω : Type)
  | done
  | panic (message : String)
  | hook (h : Hook ω) (next : h.Result → Task δ ω)
  /-- Uses a request, if it is registered, and goes on with the answer of that code. -/
  | request (req : ReqId) (code : Callback δ ω)
      (next : Option (Except Fault Outcome) → Task δ ω)
  | data (change : δ → δ) (next : δ → Task δ ω)
  | world (change : ω → ω) (next : ω → Task δ ω)
  | push (work : Work δ ω) (next : Bool → Task δ ω)
  | failedCount (next : UInt64 → Task δ ω)
  | awaitOffload (index : Nat) (next : Bool → Task δ ω)

/-- What can be pushed onto a worker's queue. -/
inductive Work (δ ω : Type)
  | task (t : Task δ ω)
  | continuation (target : Resumer) (code : Callback δ ω)

end

/-- Code that picks the peer for a request. It changes neither the worker nor its data. -/
inductive Resolver (δ ω : Type)
  | finish (result : Except Fault (Option Net.SocketAddr))
  | panic (message : String)
  | call (c : PeerCall) (next : c.Result → Resolver δ ω)
  | data (next : δ → Resolver δ ω)
  | world (change : ω → ω) (next : ω → Resolver δ ω)

end EngineBridge
