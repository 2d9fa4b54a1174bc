import EngineBridge.Proofs.Course

/-! Deeds told more exactly. A turn says besides at which point of its course a registration is when it is
    moved, run against or ended, and on behalf of what: the completion of a subrequest reaches requests by
    their names, at whatever point they are, and everything else reaches them at points of its own. -/

namespace EngineBridge
open EngineBridge.Action Registry
variable {δ ω : Type}

/-! ### Points of the course -/

section
variable {h : Host δ ω} {a : List Nat × State δ ω} {X : List Nat} {s t : State δ ω} {k : Nat} {r : Registration}

/-- Code runs against a registration, or has just run. -/
def Registration.Running (r : Registration) : Prop := r.phase = .handling ∨ r.phase = .resumed

/-- A continuation can be run against a registration. -/
def Registration.Resumable (r : Registration) : Prop := r.phase = .handling ∨ r.phase = .suspended

theorem Registration.Running.isOpen (hp : r.Running) : r.phase ≠ .finalized := by
  rcases hp with hp | hp <;> simp [hp]

theorem Registration.Resumable.isOpen (hp : r.Resumable) : r.phase ≠ .finalized := by
  rcases hp with hp | hp <;> simp [hp]

/-- Code runs against the registration in a slot, or has just run. -/
def State.Runs (s : State δ ω) (k : Nat) : Prop := ∃ r, s.worker.requests.get? k = some r ∧ r.Running

/-- Where a registration was there is one of the same course. -/
theorem Served.get? {slot : Option Nat} (hst : Served slot s t) (hr : s.worker.requests.get? k = some r) :
    ∃ r', t.worker.requests.get? k = some r' ∧ r'.course = r.course := by
  have := hst.course k
  rw [hr] at this
  exact Option.map_eq_some_iff.mp this

theorem Served.runs {slot : Option Nat} (hst : Served slot s t) (hs : s.Runs k) : t.Runs k := by
  obtain ⟨r, hr, hp⟩ := hs
  obtain ⟨r', hr', hrr'⟩ := hst.get? hr
  obtain ⟨-, -, hphase, -⟩ := Registration.course_inj hrr'
  refine ⟨r', hr', ?_⟩
  unfold Registration.Running
  rw [hphase]
  exact hp

namespace Deeds

/-- The state in which a registration that waits has moved on. -/
def waited (s : State δ ω) (k : Nat) (r : Registration) : State δ ω :=
  if r.phase = .suspended then moved s k r.serial .resumed else s

theorem waited_cases (s : State δ ω) (k : Nat) (r : Registration) :
    waited s k r = moved s k r.serial .resumed ∧ r.phase = .suspended ∨ waited s k r = s ∧ r.phase ≠ .suspended := by
  unfold waited
  split
  · next hp => exact .inl ⟨rfl, hp⟩
  · next hp => exact .inr ⟨rfl, hp⟩

theorem exec_resumeWaiting (hr : s.worker.requests.get? k = some r) :
    (Host.resumeWaiting k).exec s = (.ok (decide (r.phase = .suspended)), waited s k r) := by
  unfold Host.resumeWaiting waited
  rw [exec_bind_of_ok (exec_registration_of_some hr)]
  by_cases hp : r.phase = .suspended
  · rw [if_pos hp, if_pos hp, exec_bind_of_ok (exec_setPhase hr), decide_eq_true hp]
    rfl
  · rw [if_neg hp, if_neg hp, decide_eq_false hp]
    rfl

theorem get?_waited (hr : s.worker.requests.get? k = some r) (ho : r.phase ≠ .finalized) :
    ∃ r', (waited s k r).worker.requests.get? k = some r' ∧ r'.serial = r.serial ∧ r'.phase ≠ .finalized ∧
      (r.phase = .suspended → r'.phase = .resumed) := by
  unfold waited
  split
  · exact ⟨_, get?_moved_self hr, rfl, by simp, fun _ => rfl⟩
  · next hp => exact ⟨r, hr, rfl, ho, fun h => absurd h hp⟩

theorem moveOn (hs : Deeds h a X s) (hr : s.worker.requests.get? k = some r) : Deeds h a X (waited s k r) := by
  unfold waited
  split
  · next hp => exact hs.tail (.moved hr (hp ▸ by decide) (by decide))
  · exact hs

end Deeds
end

/-! ### Turns -/

/-- Something done with a worker, on behalf of the completion of a subrequest or of none: a state before and
    after it, each with the closures in hand. -/
inductive Turn (h : Host δ ω) : Option (Pending δ ω) → List Nat × State δ ω → List Nat × State δ ω → Prop
  | service {c slot a b} : Service h slot a b → Turn h c a b
  | untargeted {c X s} (req : ReqId) :
    Turn h c (X, s) (X, { s with worker := { s.worker with targets := s.worker.targets.erase req } })
  /-- A registration waits again after code has run against it. -/
  | left {c X s k r} : s.worker.requests.get? k = some r → r.Running →
    Turn h c (X, s) (X, moved s k r.serial .suspended)
  /-- A request has been registered, and its body is to be read. -/
  | registered {X s} (req : ReqId) {location : Option UInt64} : (location.bind h.routes.handler?).isSome →
    Turn h none (X, s) (X, registered s req .received location false)
  | anchored {X s} (req : ReqId) : Turn h none (X, s) (X, registered s req .handling none true)
  | removed {X s k r} {req : ReqId} : s.worker.slots[req]? = some k → s.worker.requests.get? k = some r →
    Turn h none (X, s) (X, removed s req k r.serial)
  /-- The engine has been asked to read a body, and has not failed. -/
  | read {X s k r} : s.worker.requests.get? k = some r → r.phase = .received →
    (∀ rc, (h.engine (.readBody r.id) s.shared.world).1 ≠ .ok (.failed rc)) →
    Turn h none (X, s) (X, h.asked (some r.serial) (.readBody r.id) s)
  /-- The engine has failed to read a body, which ends the registration. -/
  | unread {X s k r} {rc : Int32} : s.worker.requests.get? k = some r → r.phase = .received →
    (h.engine (.readBody r.id) s.shared.world).1 = .ok (.failed rc) →
    Turn h none (X, s) (X, moved (h.asked (some r.serial) (.readBody r.id) s) k r.serial .finalized)
  /-- A handler starts to run against a registration that has waited for its body. -/
  | handled {X s k r code} : s.worker.requests.get? k = some r → r.phase = .received →
    r.location.bind h.routes.handler? = some code →
    Turn h none (X, s) (X, Host.noted (moved s k r.serial .handling) (.started .handler r.serial))
  /-- A registration has waited for its body, but there is no handler for its location. -/
  | unhandled {X s k r} : s.worker.requests.get? k = some r → r.phase = .received →
    r.location.bind h.routes.handler? = none → Turn h none (X, s) (X, moved s k r.serial .handling)
  /-- A continuation starts to run. -/
  | continued {X s k r x} : s.worker.requests.get? k = some r → r.Resumable →
    Turn h none (x :: X, s) (X, Host.begun (moved s k r.serial .resumed) x (.continuation x) r.serial)
  /-- A registration has ended after code has run against it, and the engine has been told. -/
  | ended {X s k r} (rc : Int32) : s.worker.requests.get? k = some r → r.Running →
    Turn h none (X, s) (X, h.ended s k r rc)
  /-- The callback of the completed subrequest starts to run against the request of that name. -/
  | called {p : Pending δ ω} {X s k r} : s.worker.slots[p.caller]? = some k →
    s.worker.requests.get? k = some r → r.phase ≠ .finalized →
    Turn h (some p) (p.ticket :: X, s)
      (X, Host.begun (Deeds.waited s k r) p.ticket (.callback p.ticket) r.serial)
  /-- A request that the completed subrequest names has ended, and the engine has been told. -/
  | closed {p : Pending δ ω} {X s} {req : ReqId} {k r} (rc : Int32) : req = p.root ∨ req = p.caller →
    s.worker.slots[req]? = some k → s.worker.requests.get? k = some r → r.phase ≠ .finalized →
    Turn h (some p) (X, s) (X, h.ended s k r rc)
  /-- A task starts to run. -/
  | ran {X s x} : Turn h none (x :: X, s) (X, Host.noted s (.ran x))
  | taken {X s p} {sh : Shared δ ω} : s.shared.take = (some p, sh) →
    Turn h none (X, s) (p.ticket :: X, { s with shared := sh })
  | looked {X s} {sh : Shared δ ω} : s.shared.take = (none, sh) → Turn h none (X, s) (X, { s with shared := sh })
  | filtered {X s} (filter : Log.Filter) (logger : Option (Logger ω)) :
    Turn h none (X, s) (X, { s with worker := { s.worker with filter, logger } })
  | seen {X s} : Turn h none (X, s) (X, { s with worker := { s.worker with lastFailed := s.shared.failed } })

/-- Turns taken one after another on behalf of the same lead to a state and closures in hand. -/
abbrev Turns (h : Host δ ω) (c : Option (Pending δ ω)) (a : List Nat × State δ ω) (X : List Nat) (t : State δ ω) :
    Prop :=
  Relation.ReflTransGen (Turn h c) a (X, t)

/-- The state after a subrequest has been taken out of the count of the live ones. -/
def Host.uncounted (s : State δ ω) : State δ ω :=
  { s with worker := { s.worker with live := s.worker.live - 1 } }

/-- From one state to another, the completion of a live subrequest has been acted on, to its end or until a
    panic has stopped it. -/
inductive Completes (h : Host δ ω) (s : State δ ω) (token : SubToken) (p : Pending δ ω) : State δ ω → Prop
  | intro {u : State δ ω} : s.worker.subrequests.get? token.slot = some p → p.serial = token.serial →
    Turns h (some p) ([p.ticket], Host.completed s token) [] u → Completes h s token p (Host.uncounted u)

/-! ### Turns are made of deeds -/

variable {h : Host δ ω} {c : Option (Pending δ ω)} {a b : List Nat × State δ ω} {X : List Nat} {s t : State δ ω}

theorem Turn.deeds (hab : Turn h c a b) : Deeds h a b.1 b.2 := by
  cases hab with
  | service hab => exact .single (.service hab)
  | untargeted req => exact .single (.untargeted req)
  | left hr hp => exact .single (.moved hr hp.isOpen (by decide))
  | registered req => exact .single (.registered req _ _ (by decide))
  | anchored req => exact .single (.registered req _ _ (by decide))
  | removed hk hr => exact .single (.removed hk hr)
  | read hr hp he => exact .single (.read hr (hp ▸ by decide) he)
  | unread hr hp he => exact .single (.unread hr (hp ▸ by decide) he)
  | @handled X s k r _ hr hp =>
    have hm : Deeds h (X, s) X (moved s k r.serial .handling) := .single (.moved hr (hp ▸ by decide) (by decide))
    have hr' : (moved s k r.serial .handling).worker.requests.get? k = some { r with phase := .handling } :=
      get?_moved_self hr
    exact hm.tail (.started (r := { r with phase := .handling }) hr' (by simp))
  | unhandled hr hp => exact .single (.moved hr (hp ▸ by decide) (by decide))
  | @continued X s k r x hr hp =>
    have hm : Deeds h (x :: X, s) (x :: X) (moved s k r.serial .resumed) := .single (.moved hr hp.isOpen (by decide))
    have hr' : (moved s k r.serial .resumed).worker.requests.get? k = some { r with phase := .resumed } :=
      get?_moved_self hr
    exact hm.tail (.begun (r := { r with phase := .resumed }) rfl hr' (by simp))
  | ended rc hr hp => exact .single (.ended rc hr hp.isOpen)
  | called hk hr ho =>
    obtain ⟨r', hr', hserial, ho', -⟩ := Deeds.get?_waited hr ho
    rw [← hserial]
    exact (Deeds.moveOn .refl hr).tail (.begun rfl hr' ho')
  | closed rc _ hk hr ho => exact .single (.ended rc hr ho)
  | ran => exact .single .ran
  | taken hp => exact .single (.taken hp)
  | looked hp => exact .single (.looked hp)
  | filtered filter logger => exact .single (.filtered filter logger)
  | seen => exact .single .seen

theorem Turns.deeds (hat : Turns h c a X t) : Deeds h a X t := by
  have all : ∀ {b}, Relation.ReflTransGen (Turn h c) a b → Deeds h a b.1 b.2 := by
    intro b hab
    induction hab with
    | refl => exact .refl
    | tail _ hbc ih => exact ih.trans hbc.deeds
  exact all hat

theorem Completes.deeds {token : SubToken} {p : Pending δ ω} (hst : Completes h s token p t) :
    Deeds h ([], s) [] t := by
  obtain ⟨hp, hserial, hu⟩ := hst
  have hs : Deeds h ([], s) [p.ticket] (Host.completed s token) := .single (.completed hp hserial)
  exact (hs.trans hu.deeds).tail .uncounted

/-- What each turn keeps of a state whose requests are on their course, turns keep. -/
theorem Turns.invariant {P : List Nat × State δ ω → Prop}
    (hturn : ∀ {a b}, Course a.2 → P a → Turn h c a b → P b) {a b : List Nat × State δ ω} (hc : Course a.2)
    (ha : P a) (hab : Relation.ReflTransGen (Turn h c) a b) : P b := by
  suffices hboth : Course b.2 ∧ P b from hboth.2
  induction hab with
  | refl => exact ⟨hc, ha⟩
  | tail _ hbc ih => exact ⟨Deeds.course ih.1 hbc.deeds, hturn ih.1 ih.2 hbc⟩

end EngineBridge
