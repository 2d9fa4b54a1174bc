import EngineBridge.Proofs.Serving
import Mathlib.Logic.Relation

/-! Whatever is done with a worker is done in deeds, each of which is told here with all that it changes
    and with what holds when it is done. Besides the state, a deed concerns the closures that the code at
    work has in hand: those that it has been given, or has taken out of the state, and has neither run,
    destroyed nor put away yet. -/

namespace EngineBridge
open EngineBridge.Action Registry
variable {δ ω : Type}

/-! ### Changes of the state -/

namespace Host

/-- The state after a closure has been handed over. -/
def handed (s : State δ ω) : State δ ω := { s with shared := s.shared.hand.2 }

theorem exec_hand (s : State δ ω) : (hand : Action δ ω Nat).exec s = (.ok s.shared.nextTicket, handed s) := rfl

/-- The state after a serial number has been taken. -/
def numbered (s : State δ ω) : State δ ω :=
  { s with worker := { s.worker with nextSerial := s.worker.nextSerial + 1 } }

/-- The state with a further entry in the journal. -/
def noted (s : State δ ω) (e : Entry) : State δ ω := { s with shared := s.shared.record e }

/-- The state with the record of a subrequest kept. -/
def pended (s : State δ ω) (p : Pending δ ω) : State δ ω :=
  { s with
    worker := { s.worker with subrequests := s.worker.subrequests.insert p, live := s.worker.live + 1 } }

/-- The state after a subrequest has got a serial number and the engine has been asked for its root. -/
def rooted (h : Host δ ω) (s : State δ ω) (r : Registration) : State δ ω :=
  h.asked (some r.serial) (.mainOf r.id) (numbered s)

/-- The token of a subrequest whose record is kept next. -/
def tokenOf (s : State δ ω) (p : Pending δ ω) : SubToken := ⟨s.worker.subrequests.nextSlot, p.serial⟩

/-- The call that asks the engine for the child of a subrequest whose record is kept next. -/
def childCall (s : State δ ω) (r : Registration) (sub : Subrequest) (p : Pending δ ω) : Call :=
  .subrequest r.id sub.toChildRequest (tokenOf s p)

theorem exec_addPending (s : State δ ω) (p : Pending δ ω) :
    (addPending p).exec s = (.ok s.worker.subrequests.nextSlot, pended s p) := rfl

/-- What is recorded of a subrequest before the engine is asked for its child. -/
structure Records (h : Host δ ω) (s : State δ ω) (r : Registration) (p : Pending δ ω) : Prop where
  serial : p.serial = s.worker.nextSerial
  root : (h.engine (.mainOf r.id) s.shared.world).1 = .ok p.root
  child : p.child = none

/-- The state after a subrequest has been recorded and the engine has been asked for its child. -/
def recorded (h : Host δ ω) (s : State δ ω) (r : Registration) (sub : Subrequest) (p : Pending δ ω) : State δ ω :=
  h.asked (some r.serial) (childCall s r sub p) (pended (h.rooted s r) p)

/-- The state with the child of a subrequest noted. -/
def childSet (s : State δ ω) (token : SubToken) (target : Option Peer) (child : ReqId) : State δ ω where
  worker :=
    { s.worker with
      subrequests := s.worker.subrequests.modify token.slot fun p => { p with child := some child }
      targets := match target with
        | some peer => s.worker.targets.insert child peer
        | none => s.worker.targets }
  shared := s.shared.record (.issued token child)

theorem get?_recorded (h : Host δ ω) (s : State δ ω) (r : Registration) (sub : Subrequest) (p : Pending δ ω)
    (slot : Nat) : (h.recorded s r sub p).worker.subrequests.get? slot =
      if slot = (tokenOf s p).slot then some p else s.worker.subrequests.get? slot :=
  Arena.get?_insert _ _ _

theorem get?_childSet (s : State δ ω) (token : SubToken) (target : Option Peer) (child : ReqId) (slot : Nat) :
    (childSet s token target child).worker.subrequests.get? slot =
      if slot = token.slot then (s.worker.subrequests.get? slot).map fun p => { p with child := some child }
      else s.worker.subrequests.get? slot :=
  Arena.get?_modify _ _ _ _

/-- The target of the child is kept, if there is one; what is kept for other names stays. -/
theorem targets_childSet (s : State δ ω) (token : SubToken) (target : Option Peer) (child req : ReqId) :
    (childSet s token target child).worker.targets[req]? =
      if child = req then target.or s.worker.targets[req]? else s.worker.targets[req]? := by
  cases target with
  | some peer => exact ReqMap.get?_insert _ _ _ _
  | none => exact (ite_self _).symm

/-- The state after the record of a subrequest has been removed again and its callback destroyed. -/
def withdrawn (s : State δ ω) (slot ticket : Nat) : State δ ω where
  worker := { s.worker with subrequests := s.worker.subrequests.remove slot, live := s.worker.live - 1 }
  shared := s.shared.record (.destroyed ticket)

/-- The state after a thread has been asked for. -/
def spawned (h : Host δ ω) (s : State δ ω) (req : ReqId) : State δ ω :=
  { s with shared := { s.shared with world := (h.spawn req s.shared.world).2 } }

theorem exec_startThread (h : Host δ ω) (s : State δ ω) (req : ReqId) :
    (h.startThread req).exec s = (.ok (h.spawn req s.shared.world).1, h.spawned s req) := rfl

/-- The state with an offload whose thread is running. -/
def offloaded (s : State δ ω) (o : Offload δ ω) : State δ ω :=
  { s with shared := { s.shared with offloads := s.shared.offloads.push (some o) } }

/-- The state after the thread of an offload has ended. -/
def offloadEnded (s : State δ ω) (index : Nat) : State δ ω :=
  { s with shared := { s.shared with offloads := s.shared.offloads.setIfInBounds index none } }

/-- The state after a closure has been sent to the worker. -/
def sent (h : Host δ ω) (s : State δ ω) (p : Parcel δ ω) : State δ ω :=
  { s with shared := (s.shared.send h.waker p).2 }

/-- The state after the record of a subrequest has been removed for its completion. -/
def completed (s : State δ ω) (token : SubToken) : State δ ω where
  worker := { s.worker with subrequests := s.worker.subrequests.remove token.slot }
  shared := s.shared.record (.completed token)

/-- The state after a registration has ended and the engine has been told. -/
def ended (h : Host δ ω) (s : State δ ω) (k : Nat) (r : Registration) (rc : Int32) : State δ ω :=
  h.asked (some r.serial) (.finalize r.id rc) (moved s k r.serial .finalized)

/-- The state in which a closure has started to run against a registration. -/
def begun (s : State δ ω) (ticket : Nat) (role : Role) (serial : Nat) : State δ ω :=
  noted (noted s (.ran ticket)) (.started role serial)

/-- The record of a subrequest that a registration issues. -/
def recordOf (s : State δ ω) (sub : Subrequest) (done : Completion → Callback δ ω) (root : ReqId) : Pending δ ω where
  serial := s.worker.nextSerial
  root := root
  main := sub.main
  target := sub.target.map Peer.ofSocketAddr
  child := none
  ticket := s.shared.nextTicket
  done := done

section
variable {h : Host δ ω} {P : State δ ω → Prop} {s : State δ ω} {k : Nat} {r : Registration} {sub : Subrequest}

/-- Once a subrequest has been recorded, the engine panics, refuses to make its child, or makes it. -/
theorem leaves_createChild {p : Pending δ ω} (htarget : p.target = sub.target.map Peer.ofSocketAddr)
    (hbroken : ∀ message, (h.engine (childCall s r sub p) (h.rooted s r).shared.world).1 = .error message →
      P (h.recorded s r sub p))
    (hunissued : ∀ cause, (h.engine (childCall s r sub p) (h.rooted s r).shared.world).1 = .ok (.error cause) →
      (h.log (.subrequestNotCreated cause) (some r.id)).Leaves P
        (withdrawn (h.recorded s r sub p) (tokenOf s p).slot p.ticket))
    (hissued : ∀ child, (h.engine (childCall s r sub p) (h.rooted s r).shared.world).1 = .ok (.ok child) →
      (h.runPosted r).Leaves P (childSet (h.recorded s r sub p) (tokenOf s p) p.target child)) :
    (h.createChild r sub p.ticket (tokenOf s p)).Leaves P (pended (h.rooted s r) p) := by
  rw [htarget] at hissued
  cases hreply : (h.engine (childCall s r sub p) (h.rooted s r).shared.world).1 with
  | error message => exact .of_exec (exec_bind_of_error (h.exec_call_of_error hreply)) (hbroken message hreply)
  | ok reply =>
    refine .bind_of_ok (h.exec_call_of_ok hreply) ?_
    cases reply with
    | ok child => exact .bind_of_ok rfl ((hissued child hreply).bind fun _ _ _ ht => .pure ht)
    | error cause =>
      refine .bind_of_ok rfl (.bind_of_ok (exec_record _) (.bind_of_ok rfl (Leaves.bind ?_ fun _ _ _ ht => .pure ht)))
      exact hunissued cause hreply

/-- Before that, the request may be over, or the engine panic about its root. -/
theorem leaves_sendRequest {done : Completion → Callback δ ω} (hr : s.worker.requests.get? k = some r)
    (hrefused : P (noted (handed s) (.destroyed s.shared.nextTicket)))
    (hrootless : ∀ message, r.phase ≠ .finalized → (h.engine (.mainOf r.id) s.shared.world).1 = .error message →
      P (noted (h.rooted (handed s) r) (.destroyed s.shared.nextTicket)))
    (hrooted : ∀ root, r.phase ≠ .finalized → h.Records (handed s) r (recordOf s sub done root) →
      (h.createChild r sub s.shared.nextTicket (tokenOf (handed s) (recordOf s sub done root))).Leaves P
        (pended (h.rooted (handed s) r) (recordOf s sub done root))) :
    (h.sendRequest k sub done).Leaves P s := by
  refine .bind_of_ok (exec_registration_of_some hr) (.bind_of_ok (exec_hand s) ?_)
  split
  · exact hrefused
  · next hlive =>
    have ho := r.open_of_checkLive hlive
    refine .bind_of_ok exec_freshSerial ?_
    -- The engine is asked for the root; if it panics, the callback is destroyed.
    cases hroot : (h.engine (.mainOf r.id) s.shared.world).1 with
    | error message =>
      refine .of_exec (exec_bind_of_error (exec_onPanic_of_panic (h.exec_call_of_error hroot) rfl)) ?_
      exact hrootless message ho hroot
    | ok root =>
      refine .bind_of_ok (exec_onPanic_of_ok (h.exec_call_of_ok hroot)) ?_
      exact .bind_of_ok (exec_addPending _ (recordOf s sub done root)) (hrooted root ho ⟨rfl, hroot, rfl⟩)

/-- For a request that is not over, a thread is started, or there is none to be had. -/
theorem leaves_offload {work : String → Except String String} {done : Except String String → Callback δ ω}
    (hr : s.worker.requests.get? k = some r) (hrefused : P (noted (handed s) (.destroyed s.shared.nextTicket)))
    (hunstarted : ∀ cause, r.phase ≠ .finalized → (h.spawn r.id s.shared.world).1 = .error cause →
      P (noted (h.spawned (handed s) r.id) (.destroyed s.shared.nextTicket)))
    (hstarted : r.phase ≠ .finalized → (h.spawn r.id s.shared.world).1 = .ok () →
      P (offloaded (h.spawned (handed s) r.id) ⟨s.shared.nextTicket, ⟨k, r.serial, r.id⟩, work, done⟩)) :
    (h.offload k work done).Leaves P s := by
  refine .bind_of_ok (exec_registration_of_some hr) (.bind_of_ok (exec_hand s) ?_)
  split
  · exact hrefused
  · next hlive =>
    have ho := r.open_of_checkLive hlive
    refine .bind_of_ok (h.exec_startThread _ _) ?_
    split
    · next hspawn => exact hstarted ho hspawn
    · next cause hspawn => exact hunstarted cause ho hspawn

end
end Host

/-- The ticket of the closure that runs in a role. -/
def Role.ticket? : Role → Option Nat
  | handler => none
  | continuation ticket | callback ticket => some ticket

/-! ### Deeds -/

/-- Calls that are made for an open request when it issues a subrequest. -/
def Call.branches : Call → Bool
  | mainOf _ | subrequest _ _ _ | runPosted _ => true
  | _ => false

/-- From one state to another, the engine has been called, lines have been logged and data have been kept, on
    behalf of the registration in a slot, or of none. -/
inductive Speech (h : Host δ ω) (slot : Option Nat) (s : State δ ω) : State δ ω → Prop
  | aside {t} : Spoken none s t → Speech h slot s t
  /-- Code has made a call on its request. -/
  | answered {k} (c : RequestCall) : slot = some k → Speech h slot s ((h.answer k c).exec s).2
  | branched {k r c} : slot = some k → s.worker.requests.get? k = some r → r.phase ≠ .finalized →
    c.req? = some r.id → c.branches → Speech h slot s (h.asked (some r.serial) c s)

/-- Something done on behalf of the registration in a slot, or of none: a state before and after it, each
    with the closures in hand. -/
inductive Service (h : Host δ ω) (slot : Option Nat) :
    List Nat × State δ ω → List Nat × State δ ω → Prop
  | spoken {X s t} : Speech h slot s t → Service h slot (X, s) (X, t)
  | data {X s} (change : δ → δ) :
    Service h slot (X, s) (X, { s with worker := { s.worker with data := change s.worker.data } })
  | numbered {X s} : Service h slot (X, s) (X, Host.numbered s)
  | handed {X s} : Service h slot (X, s) (s.shared.nextTicket :: X, Host.handed s)
  | destroyed {X s x} : Service h slot (x :: X, s) (X, Host.noted s (.destroyed x))
  | sent {X s} {p : Parcel δ ω} : Service h slot (p.ticket :: X, s) (X, h.sent s p)
  | offloaded {X s} {o : Offload δ ω} : Service h slot (o.ticket :: X, s) (X, Host.offloaded s o)
  | offloadEnded {X s index} {o : Offload δ ω} : s.shared.offloads[index]? = some (some o) →
    Service h slot (X, s) (o.ticket :: X, Host.offloadEnded s index)
  /-- A subrequest has been recorded, and the engine has made its child. -/
  | issued {X s k r sub} {p : Pending δ ω} {child : ReqId} : slot = some k →
    s.worker.requests.get? k = some r → r.phase ≠ .finalized → h.Records s r p →
    (h.engine (Host.childCall s r sub p) (h.rooted s r).shared.world).1 = .ok (.ok child) →
    Service h slot (p.ticket :: X, s) (X, Host.childSet (h.recorded s r sub p) (Host.tokenOf s p) p.target child)
  /-- A subrequest has been recorded, and the engine has refused to make its child. -/
  | unissued {X s k r sub} {p : Pending δ ω} {cause : EngineError} : slot = some k →
    s.worker.requests.get? k = some r → r.phase ≠ .finalized → h.Records s r p →
    (h.engine (Host.childCall s r sub p) (h.rooted s r).shared.world).1 = .ok (.error cause) →
    Service h slot (p.ticket :: X, s)
      (X, Host.withdrawn (h.recorded s r sub p) (Host.tokenOf s p).slot p.ticket)
  /-- A subrequest has been recorded, and the engine has panicked when it was to make its child. -/
  | broken {X s k r sub} {p : Pending δ ω} {message : String} : slot = some k →
    s.worker.requests.get? k = some r → r.phase ≠ .finalized → h.Records s r p →
    (h.engine (Host.childCall s r sub p) (h.rooted s r).shared.world).1 = .error message →
    Service h slot (p.ticket :: X, s) (X, h.recorded s r sub p)

/-- Something done with a worker: a state before and after it, each with the closures in hand. -/
inductive Deed (h : Host δ ω) : List Nat × State δ ω → List Nat × State δ ω → Prop
  | service {slot a b} : Service h slot a b → Deed h a b
  /-- A registration that is open has moved to a phase that is not the last one. -/
  | moved {X s k r p} : s.worker.requests.get? k = some r → r.phase ≠ .finalized → p ≠ .finalized →
    Deed h (X, s) (X, moved s k r.serial p)
  /-- A registration that was open has ended, and the engine has been told. -/
  | ended {X s k r} (rc : Int32) : s.worker.requests.get? k = some r → r.phase ≠ .finalized →
    Deed h (X, s) (X, h.asked (some r.serial) (.finalize r.id rc) (moved s k r.serial .finalized))
  /-- The engine has been asked to read a body, and has not failed. -/
  | read {X s k r} : s.worker.requests.get? k = some r → r.phase ≠ .finalized →
    (∀ rc, (h.engine (.readBody r.id) s.shared.world).1 ≠ .ok (.failed rc)) →
    Deed h (X, s) (X, h.asked (some r.serial) (.readBody r.id) s)
  /-- The engine has failed to read a body, which ends the registration. -/
  | unread {X s k r} {rc : Int32} : s.worker.requests.get? k = some r → r.phase ≠ .finalized →
    (h.engine (.readBody r.id) s.shared.world).1 = .ok (.failed rc) →
    Deed h (X, s) (X, moved (h.asked (some r.serial) (.readBody r.id) s) k r.serial .finalized)
  | registered {X s} (req : ReqId) {p} (location : Option UInt64) (anchor : Bool) : p ≠ .finalized →
    Deed h (X, s) (X, registered s req p location anchor)
  | removed {X s k r} {req : ReqId} : s.worker.slots[req]? = some k → s.worker.requests.get? k = some r →
    Deed h (X, s) (X, removed s req k r.serial)
  /-- A handler starts to run against a registration that is open. -/
  | started {X s k r} : s.worker.requests.get? k = some r → r.phase ≠ .finalized →
    Deed h (X, s) (X, Host.noted s (.started .handler r.serial))
  /-- A closure starts to run against a registration that is open. -/
  | begun {X s k r x} {role : Role} : role.ticket? = some x → s.worker.requests.get? k = some r →
    r.phase ≠ .finalized → Deed h (x :: X, s) (X, Host.begun s x role r.serial)
  /-- A task starts to run. -/
  | ran {X s x} : Deed h (x :: X, s) (X, Host.noted s (.ran x))
  | taken {X s p} {sh : Shared δ ω} : s.shared.take = (some p, sh) →
    Deed h (X, s) (p.ticket :: X, { s with shared := sh })
  | looked {X s} {sh : Shared δ ω} : s.shared.take = (none, sh) → Deed h (X, s) (X, { s with shared := sh })
  | completed {X s p} {token : SubToken} : s.worker.subrequests.get? token.slot = some p →
    p.serial = token.serial → Deed h (X, s) (p.ticket :: X, Host.completed s token)
  /-- A subrequest that has completed is not counted as live any more. -/
  | uncounted {X s} : Deed h (X, s) (X, { s with worker := { s.worker with live := s.worker.live - 1 } })
  /-- Where a request is to be sent is forgotten. -/
  | untargeted {X s} (req : ReqId) :
    Deed h (X, s) (X, { s with worker := { s.worker with targets := s.worker.targets.erase req } })
  | filtered {X s} (filter : Log.Filter) (logger : Option (Logger ω)) :
    Deed h (X, s) (X, { s with worker := { s.worker with filter, logger } })
  /-- The count of failed pushes has been reported. -/
  | seen {X s} : Deed h (X, s) (X, { s with worker := { s.worker with lastFailed := s.shared.failed } })

/-- What serves the registration in a slot, done one after another, leads to a state and closures in
    hand. -/
abbrev Services (h : Host δ ω) (slot : Option Nat) (a : List Nat × State δ ω) (X : List Nat)
    (t : State δ ω) : Prop :=
  Relation.ReflTransGen (Service h slot) a (X, t)

/-- Deeds done one after another lead to a state and closures in hand. -/
abbrev Deeds (h : Host δ ω) (a : List Nat × State δ ω) (X : List Nat) (t : State δ ω) : Prop :=
  Relation.ReflTransGen (Deed h) a (X, t)

variable {h : Host δ ω} {slot : Option Nat} {a : List Nat × State δ ω} {X : List Nat} {s t : State δ ω}
  {k : Nat} {r : Registration}

theorem Services.deeds (hs : Services h slot a X s) : Deeds h a X s :=
  Relation.ReflTransGen.mono (fun _ _ => Deed.service) _ _ hs

theorem Deeds.services {Y : List Nat} (hs : Deeds h a X s) (hst : Services h slot (X, s) Y t) : Deeds h a Y t :=
  hs.trans hst.deeds

/-! ### The queue -/

namespace Shared
variable {sh sh' : Shared δ ω}

theorem pop_of_take {p : Parcel δ ω} (hp : sh.take = (some p, sh')) :
    ∃ queue, sh.queue.pop = (some p, queue) ∧ sh' = { sh with queue }.record (.taken p.ticket) := by
  unfold take at hp
  split at hp
  next taken queue hq =>
    split at hp
    · cases hp
      exact ⟨queue, hq, rfl⟩
    · cases hp

theorem pop_of_take_none (hp : sh.take = (none, sh')) :
    ∃ queue, sh.queue.pop = (none, queue) ∧ sh' = { sh with queue } := by
  unfold take at hp
  split at hp
  next taken queue hq =>
    split at hp
    · cases hp
    · cases hp
      exact ⟨queue, hq, rfl⟩

theorem send_minor (waker : Waker ω) (sh : Shared δ ω) (p : Parcel δ ω) :
    ∃ es, (sh.send waker p).2.journal = es ++ sh.journal ∧ ∀ e ∈ es, e.Minor none := by
  unfold send enqueue
  rcases sh.queue.push p with ⟨_ | _, queue⟩
  · exact ⟨[.destroyed _, .woken, .refused _], rfl, by simp [Entry.Minor]⟩
  · exact ⟨[.woken, .queued _], rfl, by simp [Entry.Minor]⟩

end Shared

/-! ### What a service leaves as it is -/

theorem Call.writes_of_branches {c : Call} (hc : c.branches) : c.writes := by
  cases c <;> first | rfl | cases hc

theorem Speech.spoken (hst : Speech h slot s t) : Spoken slot s t := by
  cases hst with
  | aside hst => exact hst.of_none
  | answered c hk =>
    subst hk
    exact Spoken.answer c
  | branched hk hr ho hc hb =>
    subst hk
    exact .asked hr hc (.inr ⟨Call.writes_of_branches hb, ho⟩)

theorem Service.served_recorded (h : Host δ ω) (sub : Subrequest) (p : Pending δ ω)
    (hr : s.worker.requests.get? k = some r) (ho : r.phase ≠ .finalized) :
    Served (some k) s (h.recorded s r sub p) := by
  have ht : Served (some k) s (Host.numbered s) := .of_eq rfl rfl (Nat.le_succ _) rfl [] rfl (by simp)
  have hu := (Spoken.asked (h := h) (s := Host.numbered s) (c := .mainOf r.id) hr rfl (.inr ⟨rfl, ho⟩)).served
  have hv : Served (some k) (h.rooted s r) (Host.pended (h.rooted s r) p) :=
    .of_eq rfl rfl (Nat.le_refl _) rfl [] rfl (by simp)
  have hw := Spoken.asked (h := h) (s := Host.pended (h.rooted s r) p) (c := Host.childCall s r sub p) hr rfl
    (.inr ⟨rfl, ho⟩)
  exact ht.trans (hu.trans (hv.trans hw.served))

/-- What is done on behalf of a registration leaves the course of every request as it is. -/
theorem Service.served {a b : List Nat × State δ ω} (hab : Service h slot a b) : Served slot a.2 b.2 := by
  cases hab with
  | spoken hst => exact hst.spoken.served
  | data | offloaded | offloadEnded => exact .of_eq rfl rfl (Nat.le_refl _) rfl [] rfl (by simp)
  | numbered => exact .of_eq rfl rfl (Nat.le_succ _) rfl [] rfl (by simp)
  | handed => exact .of_eq rfl rfl (Nat.le_refl _) rfl [_] rfl (by simp [Entry.Minor])
  | destroyed => exact .of_eq rfl rfl (Nat.le_refl _) rfl [_] rfl (by simp [Entry.Minor])
  | @sent X s p =>
    obtain ⟨es, hes, hm⟩ := Shared.send_minor h.waker s.shared p
    exact .of_eq rfl rfl (Nat.le_refl _) rfl es hes fun e he => (hm e he).of_none
  | @issued _ _ _ _ sub p _ hk hr ho =>
    subst hk
    refine (Service.served_recorded h sub p hr ho).trans ?_
    exact .of_eq rfl rfl (Nat.le_refl _) rfl [_] rfl (by simp [Entry.Minor])
  | @unissued _ _ _ _ sub p _ hk hr ho =>
    subst hk
    refine (Service.served_recorded h sub p hr ho).trans ?_
    exact .of_eq rfl rfl (Nat.le_refl _) rfl [_] rfl (by simp [Entry.Minor])
  | @broken _ _ _ _ sub p _ hk hr ho =>
    subst hk
    exact Service.served_recorded h sub p hr ho

theorem Services.served {b : List Nat × State δ ω} (hab : Relation.ReflTransGen (Service h slot) a b) :
    Served slot a.2 b.2 := by
  induction hab with
  | refl => exact .refl _
  | tail _ hbc ih => exact ih.trans hbc.served

/-! ### What each deed keeps -/

/-- What each deed keeps, deeds keep. -/
theorem Deeds.invariant {P : List Nat × State δ ω → Prop} (hdeed : ∀ {a b}, P a → Deed h a b → P b)
    {a b : List Nat × State δ ω} (ha : P a) (hab : Relation.ReflTransGen (Deed h) a b) : P b := by
  induction hab with
  | refl => exact ha
  | tail _ hbc ih => exact hdeed ih hbc

/-! ### The journal only grows -/

theorem Deed.grows {a b : List Nat × State δ ω} (hab : Deed h a b) :
    a.2.shared.journal <:+ b.2.shared.journal := by
  cases hab with
  | service hab =>
    obtain ⟨es, hes, -⟩ := hab.served.entries
    exact ⟨es, hes.symm⟩
  | taken htake =>
    obtain ⟨queue, -, rfl⟩ := Shared.pop_of_take htake
    exact List.suffix_cons _ _
  | looked htake =>
    obtain ⟨queue, -, rfl⟩ := Shared.pop_of_take_none htake
    exact List.suffix_rfl
  | ended | unread | begun => exact (List.suffix_cons _ _).trans (List.suffix_cons _ _)
  | uncounted | untargeted | filtered | seen => exact List.suffix_rfl
  | _ => exact List.suffix_cons _ _

theorem Deeds.grows {a b : List Nat × State δ ω} (hab : Relation.ReflTransGen (Deed h) a b) :
    a.2.shared.journal <:+ b.2.shared.journal :=
  invariant (P := fun b => a.2.shared.journal <:+ b.2.shared.journal) (fun hb hbc => hb.trans hbc.grows)
    List.suffix_rfl hab

namespace Services

/-! ### Code at work on a request -/

theorem aside (hs : Services h slot a X s) (hst : Spoken none s t) : Services h slot a X t :=
  hs.tail (.spoken (.aside hst))

theorem speak {α : Type} {act : Action δ ω α} (hs : Services h slot a X s)
    (ha : act.Leaves (Spoken none s) s) : act.Leaves (Services h slot a X) s :=
  ha.mono fun _ => hs.aside

theorem branched {c : Call} (hs : Services h (some k) a X s) (hr : s.worker.requests.get? k = some r)
    (ho : r.phase ≠ .finalized) (hc : c.req? = some r.id) (hb : c.branches) :
    Services h (some k) a X (h.asked (some r.serial) c s) :=
  hs.tail (.spoken (.branched rfl hr ho hc hb))

theorem changeData (hs : Services h slot a X s) (change : δ → δ) :
    (Host.changeData change : Action δ ω δ).Leaves (Services h slot a X) s :=
  hs.tail (.data change)

theorem changeWorld (hs : Services h slot a X s) (change : ω → ω) :
    (Host.changeWorld change : Action δ ω ω).Leaves (Services h slot a X) s :=
  hs.aside (.world _)

theorem failedCount (hs : Services h slot a X s) :
    (Host.failedCount : Action δ ω UInt64).Leaves (Services h slot a X) s := hs

theorem push (hs : Services h slot a X s) (work : Work δ ω) :
    (h.push work).Leaves (Services h slot a X) s :=
  (hs.tail .handed).tail (.sent (p := ⟨s.shared.nextTicket, work⟩))

theorem awaitOffload (hs : Services h slot a X s) (index : Nat) :
    (h.awaitOffload index).Leaves (Services h slot a X) s := by
  show Services h slot a X { s with shared := (s.shared.awaitOffload h.waker index).2 }
  unfold Shared.awaitOffload
  split
  · next o ho =>
    have ho' : s.shared.offloads[index]? = some (some o) := by
      cases hc : s.shared.offloads[index]? with
      | none => simp [hc] at ho
      | some c => simpa [hc] using ho
    exact (hs.tail (.offloadEnded ho')).tail (.sent (p := ⟨o.ticket, _⟩))
  · exact hs

theorem offload (hs : Services h (some k) a X s) (work : String → Except String String)
    (done : Except String String → Callback δ ω) :
    (h.offload k work done).Leaves (Services h (some k) a X) s := by
  have ht := hs.tail .handed
  cases hr : s.worker.requests.get? k with
  | none => exact .of_exec (exec_bind_of_error (exec_registration_of_none hr)) hs
  | some r =>
    refine Host.leaves_offload hr (ht.tail .destroyed) (fun _ _ _ => ?_) fun _ _ => ?_
    · exact (aside ht (.world _)).tail .destroyed
    · exact (aside ht (.world _)).tail (.offloaded (o := ⟨s.shared.nextTicket, _, work, done⟩))

theorem runPosted (hs : Services h (some k) a X s) (hr : s.worker.requests.get? k = some r)
    (ho : r.phase ≠ .finalized) : (h.runPosted r).Leaves (Services h (some k) a X) s := by
  unfold Host.runPosted
  split
  · have ht := hs.branched hr ho (c := .runPosted r.id) rfl rfl
    exact (h.leaves_call.mpr ht).bind fun posted _ _ hu => .forM (fun _ _ hv => (push hv _).discard) posted hu
  · exact hs

/-- The engine is asked for the child of a subrequest that has been recorded. -/
theorem createChild {sub : Subrequest} {p : Pending δ ω} (hs : Services h (some k) a (p.ticket :: X) s)
    (hr : s.worker.requests.get? k = some r) (ho : r.phase ≠ .finalized) (hp : h.Records s r p)
    (htarget : p.target = sub.target.map Peer.ofSocketAddr) :
    (h.createChild r sub p.ticket (Host.tokenOf s p)).Leaves (Services h (some k) a X)
      (Host.pended (h.rooted s r) p) := by
  refine Host.leaves_createChild htarget (fun _ he => ?_) (fun _ he => ?_) fun _ he => ?_
  · exact hs.tail (.broken rfl hr ho hp he)
  · exact speak (hs.tail (.unissued rfl hr ho hp he)) (.log _ _)
  · exact runPosted (hs.tail (.issued rfl hr ho hp he)) hr ho

theorem sendRequest (hs : Services h (some k) a X s) (sub : Subrequest)
    (done : Completion → Callback δ ω) : (h.sendRequest k sub done).Leaves (Services h (some k) a X) s := by
  have ht := hs.tail .handed
  cases hr : s.worker.requests.get? k with
  | none => exact .of_exec (exec_bind_of_error (exec_registration_of_none hr)) hs
  | some r =>
    refine Host.leaves_sendRequest hr (ht.tail .destroyed) (fun _ ho _ => ?_) fun root ho hp => ?_
    · exact (branched (ht.tail .numbered) hr ho (c := .mainOf r.id) rfl rfl).tail .destroyed
    · exact createChild (p := Host.recordOf s sub done root) ht hr ho hp rfl

theorem answer (hs : Services h (some k) a X s) (c : RequestCall) :
    (h.answer k c).Leaves (Services h (some k) a X) s :=
  hs.tail (.spoken (.answered c rfl))

/-- Whatever code does, it serves the registration that it runs against. -/
theorem runCallback : ∀ (code : Callback δ ω) {s : State δ ω}, Services h (some k) a X s →
    (h.runCallback k code).Leaves (Services h (some k) a X) s
  | .finish _, _, hs => .pure hs
  | .panic _, _, hs => .raise hs
  | .call c next, _, hs => (answer hs c).bind fun x _ _ ht => runCallback (next x) ht
  | .data change next, _, hs => (changeData hs change).bind fun x _ _ ht => runCallback (next x) ht
  | .world change next, _, hs => (changeWorld hs change).bind fun x _ _ ht => runCallback (next x) ht
  | .sendRequest sub done next, _, hs => (sendRequest hs sub done).bind fun x _ _ ht => runCallback (next x) ht
  | .offload work done next, _, hs => (offload hs work done).bind fun x _ _ ht => runCallback (next x) ht
  | .push work next, _, hs => (push hs work).bind fun x _ _ ht => runCallback (next x) ht
  | .failedCount next, _, hs => (failedCount hs).bind fun x _ _ ht => runCallback (next x) ht
  | .awaitOffload index next, _, hs => (awaitOffload hs index).bind fun x _ _ ht => runCallback (next x) ht

end Services

/-- Code leaves the course of every request as it is. -/
theorem Served.runCallback (code : Callback δ ω) : (h.runCallback k code).Leaves (Served (some k) s) s :=
  (Services.runCallback code .refl).mono fun _ => Services.served (a := ([], s))

end EngineBridge
