import EngineBridge.Proofs.Standing

/-! Faults without a text. Of a fault that application code has returned a text is made, by application code
    again, when the guard around the first has been left. A panic of that code is held by nothing: what would have
    followed the result is not done, and the request that the code has run against stays where it is. -/

namespace EngineBridge
open EngineBridge.Action Registry
variable {δ ω : Type} {h : Host δ ω} {s t u : State δ ω} {k n : Nat} {a : Act δ ω} {message : String}

namespace Host

/-- With an act code starts to run against the registration in a slot, and this is the state in which it does. -/
inductive Enters (h : Host δ ω) (s : State δ ω) : Act δ ω → Nat → Callback δ ω → State δ ω → Prop
  /-- A handler, or a continuation that is taken from the queue. -/
  | started {a role k code u} : h.Starts s a role k code u → Enters h s a k code u
  /-- The callback of a subrequest that completes. -/
  | called {token completion p child k r} : s.worker.subrequests.get? token.slot = some p → p.serial = token.serial →
    p.child = some child → s.worker.slots[p.caller]? = some k → s.worker.requests.get? k = some r →
    r.phase ≠ .finalized →
    Enters h s (.hook (.subrequestDone token completion)) k (p.done completion) (calling (arrived s token child) p k r)

/-- The code that starts to run with an act returns a fault whose text cannot be made, and this is the panic of its
    making. -/
inductive Chokes (h : Host δ ω) (s : State δ ω) : Act δ ω → String → Prop
  | request {a k code u message} : h.Enters s a k code u → h.Stumbles (h.runCallback k code) u message →
    Chokes h s a message
  | resolver {req pool code message} : s.worker.targets[req]? = none → h.routes.resolver? pool = some code →
    h.Stumbles (h.runResolver req pool code) s message → Chokes h s (.hook (.selectPeer req pool)) message

/-- With an act code runs against the registration with a serial number, and leaves it so. -/
def Strands (h : Host δ ω) (s : State δ ω) (a : Act δ ω) (n : Nat) : Prop :=
  ∃ k code u r message, h.Enters s a k code u ∧ u.worker.requests.get? k = some r ∧ r.serial = n ∧
    h.Stumbles (h.runCallback k code) u message

/-- In a run that leads to a state, the registration with a serial number has been left so. -/
inductive Stranded (h : Host δ ω) (n : Nat) : State δ ω → Prop
  | strands {s : State δ ω} {a} : Reachable h s → h.Strands s a n → Stranded h n (h.act s a)
  | step {s t : State δ ω} : Stranded h n s → Step h s t → Stranded h n t

/-! ### What is left -/

theorem applied_of_stumbles {code : Callback δ ω} (hx : h.Stumbles (h.runCallback k code) u message) :
    h.applied u k code = (.error (.panic message), ((h.runCallback k code).exec u).2) :=
  exec_explain_bind_of_error (stumbles_iff.mp hx)

theorem exec_pickPeer_of_none {req : ReqId} (hn : s.worker.targets[req]? = none) (pool : UInt64) :
    (h.pickPeer req pool).exec s = (h.resolvePeer req pool).exec s := by
  unfold pickPeer
  rw [exec_bind_of_ok exec_worker, hn]

/-- The panic leaves what has been asked of the worker. -/
theorem Chokes.exec_perform {hook : Hook ω} (hc : h.Chokes s (.hook hook) message) (tick : Action δ ω (List Nat)) :
    ∃ t, (h.perform tick hook).exec s = (.error (.panic message), t) := by
  cases hc with
  | @request _ k code u _ henters hstumbles =>
    cases henters with
    | started hstart =>
      have happlied := applied_of_stumbles hstumbles
      cases hstart with
      | routed he hcode ht hbody =>
        exact ⟨_, (exec_contentPhase_of_complete he hcode ht hbody).trans (by rw [happlied]; rfl)⟩
      | read hk hr hp hcode => exact ⟨_, (exec_bodyReady_of_received hk hr hp hcode).trans happlied⟩
    | @called token completion p child _ r hp hserial hchild hk hr ho =>
      have hcall : (h.callBack p k completion).exec (arrived s token child) = (.error (.panic message), _) :=
        exec_callBack_of_error (s := arrived s token child) hr ho (stumbles_iff.mp hstumbles)
      have hcomplete : (h.complete p completion).exec (arrived s token child) = (.error (.panic message), _) :=
        (exec_bind_of_ok (exec_openSlot?_of_open (s := arrived s token child) hk hr ho)).trans hcall
      have hexec := exec_subrequestDone_of_child (h := h) hp hserial hchild completion
      rw [hcomplete] at hexec
      exact ⟨_, hexec⟩
  | @resolver req pool code _ hn hcode hstumbles =>
    have hresolve : (h.resolvePeer req pool).exec s =
        (.error (.panic message), ((h.runResolver req pool code).exec s).2) := by
      unfold resolvePeer
      rw [hcode]
      dsimp only
      rw [(Errand.runResolver (h := h) (R := True) (C := True) req pool code).contained.exec_guarded_bind]
      exact exec_explain_bind_of_error (stumbles_iff.mp hstumbles)
    exact ⟨_, exec_bind_of_error ((exec_pickPeer_of_none hn pool).trans hresolve)⟩

/-! ### Where every text can be made -/

theorem Displays.not_chokes (hd : h.Displays) : ¬h.Chokes s a message := by
  intro hc
  cases hc with
  | request _ hstumbles | resolver _ _ hstumbles => exact hd.not_stumbles hstumbles

theorem Displays.not_strands (hd : h.Displays) : ¬h.Strands s a n := by
  rintro ⟨_, _, _, _, _, -, -, -, hstumbles⟩
  exact hd.not_stumbles hstumbles

theorem Displays.not_stranded (hd : h.Displays) : ¬h.Stranded n s := by
  intro hs
  induction hs with
  | strands _ hstrands => exact hd.not_strands hstrands
  | step _ _ ih => exact ih

end Host
end EngineBridge
