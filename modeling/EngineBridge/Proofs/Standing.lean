import EngineBridge.Proofs.Acts
import EngineBridge.Proofs.Completion
import EngineBridge.Proofs.Forestalled
import EngineBridge.Proofs.Offloads
import EngineBridge.Proofs.Resumption

/-! Where requests stand in their course, and how handlers and continuations start. What is done for one request
    leaves the others where they stand. -/

namespace EngineBridge
open EngineBridge.Action Registry
variable {δ ω α : Type} {h : Host δ ω} {s t u : State δ ω} {k : Nat} {r : Registration} {p q : Phase}
  {target target' : Resumer} {req : ReqId}

/-! ### Where a request stands -/

/-- The registration that a resumer names is there, under the name of its request, at a point of its course. -/
def State.Stands (s : State δ ω) (target : Resumer) (p : Phase) : Prop :=
  s.worker.slots[target.req]? = some target.slot ∧ ∃ r, s.worker.requests.get? target.slot = some r ∧
    r.id = target.req ∧ r.serial = target.serial ∧ r.phase = p

namespace State.Stands

theorem phase_inj (hs : s.Stands target p) (hs' : s.Stands target' q) (hslot : target.slot = target'.slot) : p = q := by
  obtain ⟨-, r, hr, -, -, hp⟩ := hs
  obtain ⟨-, r', hr', -, -, hq⟩ := hs'
  rw [hslot, hr'] at hr
  cases hr
  exact hp.symm.trans hq

theorem req_inj (hs : s.Stands target p) (hs' : s.Stands target' q) (hslot : target.slot = target'.slot) :
    target.req = target'.req := by
  obtain ⟨-, r, hr, hid, -⟩ := hs
  obtain ⟨-, r', hr', hid', -⟩ := hs'
  rw [hslot, hr'] at hr
  cases hr
  exact hid.symm.trans hid'

theorem of_eq (hs : s.Stands target p) (hslots : t.worker.slots = s.worker.slots)
    (hrequests : t.worker.requests = s.worker.requests) : t.Stands target p := by
  unfold State.Stands
  rw [hslots, hrequests]
  exact hs

theorem served {slot : Option Nat} (hs : s.Stands target p) (hst : Served slot s t) : t.Stands target p := by
  obtain ⟨hk, r, hr, hid, hserial, hp⟩ := hs
  obtain ⟨r', hr', hrr'⟩ := hst.get? hr
  obtain ⟨hid', hserial', hp', -⟩ := Registration.course_inj hrr'
  exact ⟨hst.slots ▸ hk, r', hr', hid'.trans hid, hserial'.trans hserial, hp'.trans hp⟩

theorem moved (hs : s.Stands target p) (n : Nat) (q : Phase) : (moved s target.slot n q).Stands target q := by
  obtain ⟨hk, r, hr, hid, hserial, -⟩ := hs
  refine ⟨hk, { r with phase := q }, ?_, hid, hserial, rfl⟩
  rw [get?_moved, if_pos rfl, hr]
  rfl

theorem moved_of_ne (hs : s.Stands target p) (hne : target.slot ≠ k) (n : Nat) (q : Phase) :
    (Registry.moved s k n q).Stands target p := by
  obtain ⟨hk, r, hr, hrest⟩ := hs
  refine ⟨hk, r, ?_, hrest⟩
  rw [get?_moved, if_neg hne, hr]

theorem registered (hs : s.Stands target p) (hn : s.worker.slots[req]? = none) (q : Phase) (location : Option UInt64)
    (anchor : Bool) : (registered s req q location anchor).Stands target p := by
  obtain ⟨hk, r, hr, hrest⟩ := hs
  refine ⟨?_, r, get?_registered_of_some hr, hrest⟩
  rw [slots_registered, if_neg]
  · exact hk
  · rintro rfl
    rw [hn] at hk
    cases hk

theorem registered_self (p : Phase) (location : Option UInt64) :
    (Registry.registered s req p location false).Stands ⟨s.worker.requests.nextSlot, s.worker.nextSerial, req⟩ p := by
  refine ⟨?_, _, get?_registered_self, rfl, rfl, rfl⟩
  rw [slots_registered, if_pos rfl]

end State.Stands

/-- No registration is that of an anchor. -/
def State.Anchorless (s : State δ ω) : Prop := ∀ k r, s.worker.requests.get? k = some r → r.anchor = false

namespace State.Anchorless

theorem served {slot : Option Nat} (hs : s.Anchorless) (hst : Served slot s t) : t.Anchorless := by
  intro k r hr
  have hcourse := hst.course k
  rw [hr] at hcourse
  obtain ⟨r', hr', hrr'⟩ := Option.map_eq_some_iff.mp hcourse.symm
  obtain ⟨-, -, -, -, ha⟩ := Registration.course_inj hrr'
  exact ha.symm.trans (hs k r' hr')

theorem moved (hs : s.Anchorless) (n : Nat) (q : Phase) : (moved s k n q).Anchorless := by
  intro k' r hr
  rw [get?_moved] at hr
  split at hr
  · obtain ⟨r', hr', rfl⟩ := Option.map_eq_some_iff.mp hr
    exact hs k' r' hr'
  · exact hs k' r hr

theorem registered (hs : s.Anchorless) (q : Phase) (location : Option UInt64) :
    (registered s req q location false).Anchorless := by
  intro k r hr
  rw [get?_registered] at hr
  split at hr
  · cases hr
    rfl
  · exact hs k r hr

end State.Anchorless

/-! ### What leaves requests where they stand -/

namespace Journal

theorem finalizes_append (later earlier : Journal) :
    (later ++ earlier).finalizes = earlier.finalizes ++ later.finalizes :=
  tell_append _ _ _

theorem finalizes_of_eq {j earlier : Journal} (later : Journal) (hj : j = later ++ earlier)
    (hl : later.finalizes = []) : j.finalizes = earlier.finalizes := by
  rw [hj, finalizes_append, hl, List.append_nil]

end Journal

theorem Served.finalizes {slot : Option Nat} (hst : Served slot s t) :
    t.shared.journal.finalizes = s.shared.journal.finalizes := by
  obtain ⟨es, hes, hends, -⟩ := (Tells.of_served hst).entries
  exact Journal.finalizes_of_eq es hes hends

/-- From one state to another threads have ended at most, every request whose body had been read stands where it
    stood, and the engine has been told of no end. There is no anchor, and the logger does not panic, if it was so
    before. -/
structure State.Spares (s t : State δ ω) : Prop where
  carries : ∀ {made gone}, s.Carries made gone → t.Carries made gone
  stands : ∀ {target p}, p ≠ .received → s.Stands target p → t.Stands target p
  ends : t.shared.journal.finalizes = s.shared.journal.finalizes
  anchorless : s.Anchorless → t.Anchorless
  calm : s.worker.LogsCalmly → t.worker.LogsCalmly

namespace State.Spares

theorem refl (s : State δ ω) : s.Spares s := ⟨id, fun _ => id, rfl, id, id⟩

theorem trans (hst : s.Spares t) (htu : t.Spares u) : s.Spares u where
  carries hs := htu.carries (hst.carries hs)
  stands hp hs := htu.stands hp (hst.stands hp hs)
  ends := htu.ends.trans hst.ends
  anchorless ha := htu.anchorless (hst.anchorless ha)
  calm hl := htu.calm (hst.calm hl)

theorem served {slot : Option Nat} (hst : Served slot s t)
    (hcarries : ∀ {made gone}, s.Carries made gone → t.Carries made gone) : s.Spares t :=
  ⟨hcarries, fun _ hs => hs.served hst, hst.finalizes, fun ha => ha.served hst, fun hl => hl.congr hst.logger⟩

theorem spoken (hst : Spoken none s t) : s.Spares t := served hst.served fun hs => hs.of_unsent hst.unsent

theorem log (hst : s.Spares t) (notice : Log.Notice) (req : Option ReqId) : (h.log notice req).Leaves s.Spares t :=
  (Spoken.log notice req).mono fun _ htu => hst.trans (spoken htu)

theorem moved (hr : s.worker.requests.get? k = some r) (hp : r.phase = .received) (q : Phase) :
    s.Spares (moved s k r.serial q) where
  carries hs := hs.of_unsent ⟨rfl, rfl, rfl⟩
  stands {target p} hne hs := by
    refine hs.moved_of_ne ?_ r.serial q
    rintro rfl
    obtain ⟨-, r', hr', -, -, hp'⟩ := hs
    rw [hr] at hr'
    cases hr'
    exact hne (hp'.symm.trans hp)
  ends := Journal.finalizes_of_eq [.moved _ _] rfl rfl
  anchorless ha := ha.moved r.serial q
  calm hl := hl

theorem registered (hn : s.worker.slots[req]? = none) (location : Option UInt64) :
    s.Spares (Registry.registered s req .received location false) where
  carries hs := hs.of_unsent ⟨rfl, rfl, rfl⟩
  stands _ hs := hs.registered hn _ _ _
  ends := Journal.finalizes_of_eq [.registered _ _ _ _] rfl rfl
  anchorless ha := ha.registered _ _
  calm hl := hl

theorem noted_started (role : Role) (n : Nat) : s.Spares (Host.noted s (.started role n)) :=
  ⟨fun hs => hs.of_unsent ⟨rfl, rfl, rfl⟩, fun _ hs => hs, Journal.finalizes_of_eq [.started _ _] rfl rfl, id, id⟩

theorem asked_readBody (serial : Option Nat) (req : ReqId) : s.Spares (h.asked serial (.readBody req) s) :=
  ⟨fun hs => hs.of_unsent ⟨rfl, rfl, rfl⟩, fun _ hs => hs, Journal.finalizes_of_eq [.called _ _ _] rfl rfl, id, id⟩

end State.Spares

/-! ### How handlers and continuations start -/

namespace Host

/-- The state in which the handler of the request in a slot has begun to run. -/
def handling (s : State δ ω) (k serial : Nat) : State δ ω :=
  noted (moved s k serial .handling) (.started .handler serial)

/-- The state in which a request is being registered, and its body has been asked for. -/
def reading (h : Host δ ω) (s : State δ ω) (req : ReqId) (location : Option UInt64) : State δ ω :=
  h.asked (some s.worker.nextSerial) (.readBody req) (registered s req .received location false)

/-- With an act a handler or a continuation starts to run against the registration in a slot, as the role tells, and
    this is the state in which it does. -/
inductive Starts (h : Host δ ω) (s : State δ ω) : Act δ ω → Role → Nat → Callback δ ω → State δ ω → Prop
  /-- A request is routed here and has its body already. -/
  | routed {req location code t} : (h.engine (.location req) s.shared.world).1 = .ok location →
    location.bind h.routes.handler? = some code →
    (unregister req).exec (h.asked none (.location req) s) = (.ok (), t) →
    (h.engine (.readBody req) t.shared.world).1 = .ok .complete →
    Starts h s (.hook (.contentPhase req)) .handler t.worker.requests.nextSlot code
      (handling (h.reading t req location) t.worker.requests.nextSlot t.worker.nextSerial)
  /-- The body of a request has been read. -/
  | read {req k r code} : s.worker.slots[req]? = some k → s.worker.requests.get? k = some r → r.phase = .received →
    r.location.bind h.routes.handler? = some code →
    Starts h s (.hook (.bodyReady req)) .handler k code (handling s k r.serial)
  /-- A continuation is taken from the queue, and its registration can be resumed. -/
  | resumed {x target code sh r} : s.shared.take = (some ⟨x, .continuation target code⟩, sh) →
    s.worker.requests.get? target.slot = some r → r.serial = target.serial → r.Resumable →
    Starts h s .next (.continuation x) target.slot code (resuming { s with shared := sh } target x)

theorem exec_dispatch_of_some {code : Callback δ ω} (hr : s.worker.requests.get? k = some r)
    (hcode : r.location.bind h.routes.handler? = some code) :
    (h.dispatch k).exec s = h.applied (handling s k r.serial) k code := by
  have hreg : (registration k).exec (moved s k r.serial .handling) = (.ok { r with phase := .handling }, _) :=
    exec_registration_of_some (get?_moved_self hr)
  unfold dispatch
  rw [exec_bind_of_ok (exec_setPhase hr), exec_bind_of_ok hreg]
  dsimp only
  rw [hcode]
  refine (exec_bind_of_ok hreg).trans ((exec_bind_of_ok (exec_record _)).trans ?_)
  exact (Contained.runCallback code).exec_guarded_bind (handling s k r.serial)

theorem exec_contentPhase_of_some {location : Option UInt64} {code : Callback δ ω}
    (he : (h.engine (.location req) s.shared.world).1 = .ok location)
    (hcode : location.bind h.routes.handler? = some code)
    (ht : (unregister req).exec (h.asked none (.location req) s) = (.ok (), t)) :
    (h.contentPhase req).exec s =
      (h.startBody t.worker.requests.nextSlot req).exec (registered t req .received location false) := by
  unfold contentPhase
  rw [exec_bind_of_ok (h.exec_call_of_ok he), hcode]
  exact (exec_bind_of_ok ht).trans (exec_bind_of_ok (exec_register req _ _ _))

theorem exec_startBody_of_complete {location : Option UInt64}
    (he : (h.engine (.readBody req) s.shared.world).1 = .ok .complete) :
    (h.startBody s.worker.requests.nextSlot req).exec (registered s req .received location false) =
      (do
        h.dispatch s.worker.requests.nextSlot
        return ContentPhase.done).exec (h.reading s req location) := by
  unfold startBody
  rw [exec_bind_of_ok (exec_registration_of_some get?_registered_self)]
  exact exec_bind_of_ok (h.exec_call_of_ok (s := registered s req .received location false) he)

/-- The handler of a request that has its body already runs at once. -/
theorem exec_contentPhase_of_complete {location : Option UInt64} {code : Callback δ ω}
    (he : (h.engine (.location req) s.shared.world).1 = .ok location)
    (hcode : location.bind h.routes.handler? = some code)
    (ht : (unregister req).exec (h.asked none (.location req) s) = (.ok (), t))
    (hbody : (h.engine (.readBody req) t.shared.world).1 = .ok .complete) :
    (h.contentPhase req).exec s = Prod.map (Except.map fun _ => .done) id
      (h.applied (handling (h.reading t req location) t.worker.requests.nextSlot t.worker.nextSerial)
        t.worker.requests.nextSlot code) := by
  have hr : (h.reading t req location).worker.requests.get? t.worker.requests.nextSlot =
      some { id := req, serial := t.worker.nextSerial, phase := .received, location } := get?_registered_self
  rw [exec_contentPhase_of_some he hcode ht, exec_startBody_of_complete hbody, exec_bind,
    exec_dispatch_of_some hr hcode]
  rcases h.applied _ _ code with ⟨_ | _, _⟩ <;> rfl

/-- The handler of a request that has waited for its body runs when that has been read. -/
theorem exec_bodyReady_of_received {code : Callback δ ω} (hk : s.worker.slots[req]? = some k)
    (hr : s.worker.requests.get? k = some r) (hp : r.phase = .received)
    (hcode : r.location.bind h.routes.handler? = some code) :
    (h.bodyReady req).exec s = h.applied (handling s k r.serial) k code := by
  unfold bodyReady
  rw [exec_bind_of_ok (exec_slotOf? req), hk]
  dsimp only
  rw [exec_bind_of_ok (exec_registration_of_some hr), if_pos hp]
  exact exec_dispatch_of_some hr hcode

namespace Starts
variable {a : Act δ ω} {role : Role} {code : Callback δ ω}

/-- The state after an act is the one that comes of the code that starts with it. -/
theorem act_eq (ha : h.Starts s a role k code u) : h.act s a = (h.applied u k code).2 := by
  cases ha with
  | routed he hcode ht hbody => exact congrArg Prod.snd (exec_contentPhase_of_complete he hcode ht hbody)
  | read hk hr hp hcode => exact congrArg Prod.snd (exec_bodyReady_of_received hk hr hp hcode)
  | @resumed x target _ sh r htake hr hserial hp =>
    have hnext : h.advanced s = ((h.resume target x code).exec { s with shared := sh }).2 := by
      unfold advanced
      rw [htake]
      rfl
    show h.advanced s = _
    rw [hnext, exec_resume_of_some (s := { s with shared := sh }) hr hserial hp]

end Starts
end Host

/-! ### Acts that start nothing -/

/-- Acts that release no request and register none again, that neither push nor run code but handlers and
    continuations, and that set no logger that panics. -/
def State.Allows (s : State δ ω) : Act δ ω → Prop
  | .hook (.contentPhase req) => s.worker.slots[req]? = none
  | .hook (.setLogger _ logger) => ∀ line world, (logger line world).1 = .ok ()
  | .hook (.released _) | .hook (.newAnchor _) | .hook (.subrequestDone _ _) | .request _ _ | .push _ => False
  | _ => True

namespace Host
variable {a : Act δ ω} {code : Callback δ ω}

theorem spares_handling (hs : s.Stands target .received) :
    s.Spares (handling s target.slot target.serial) ∧
      (handling s target.slot target.serial).Stands target .handling := by
  refine ⟨?_, (hs.moved target.serial .handling).of_eq rfl rfl⟩
  obtain ⟨-, r, hr, -, hserial, hp⟩ := hs
  rw [← hserial]
  exact (State.Spares.moved hr hp .handling).trans (.noted_started _ _)

/-- What is done before a handler starts. -/
theorem Starts.spares (hs : Told s) (hallow : s.Allows a) (ha : h.Starts s a .handler k code u) :
    s.Spares u ∧ ∃ n req, u.Stands ⟨k, n, req⟩ .handling := by
  cases ha with
  | @routed req location _ t he hcode ht hbody =>
    have hn : (h.asked none (.location req) s).worker.slots[req]? = none := hallow
    have hst : s.Spares (h.asked none (.location req) s) := .spoken (.asked_none rfl)
    obtain rfl : h.asked none (.location req) s = t := by
      rw [exec_unregister_of_none hn] at ht
      exact congrArg Prod.snd ht
    generalize h.asked none (.location req) s = t at *
    have hread : t.Spares (h.reading t req location) :=
      (State.Spares.registered hn location).trans (.asked_readBody (some t.worker.nextSerial) req)
    have hstands : (h.reading t req location).Stands ⟨_, _, req⟩ .received :=
      (State.Stands.registered_self .received location).of_eq rfl rfl
    obtain ⟨hspares, hhandling⟩ := spares_handling hstands
    exact ⟨(hst.trans hread).trans hspares, _, _, hhandling⟩
  | @read req k r _ hk hr hp hcode =>
    obtain ⟨r', hr', hid⟩ := hs.named hk
    rw [hr] at hr'
    cases hr'
    have hstands : s.Stands ⟨k, r.serial, req⟩ .received := ⟨hk, r, hr, hid, rfl, hp⟩
    obtain ⟨hspares, hhandling⟩ := spares_handling hstands
    exact ⟨hspares, _, _, hhandling⟩

theorem spares_startBody (hst : s.Spares t) (hn : t.worker.slots[req]? = none)
    (hno : (h.engine (.readBody req) t.shared.world).1 ≠ .ok .complete) (location : Option UInt64) :
    (h.startBody t.worker.requests.nextSlot req).Leaves s.Spares (registered t req .received location false) := by
  have hr : (h.reading t req location).worker.requests.get? t.worker.requests.nextSlot =
      some { id := req, serial := t.worker.nextSerial, phase := .received, location } := get?_registered_self
  have hread : s.Spares (h.reading t req location) :=
    (hst.trans (.registered hn location)).trans (.asked_readBody (some t.worker.nextSerial) req)
  refine .bind_of_ok (exec_registration_of_some get?_registered_self) ?_
  cases he : (h.engine (.readBody req) t.shared.world).1 with
  | error message =>
    exact .of_exec (exec_bind_of_error (h.exec_call_of_error (s := registered t req .received location false) he)) hread
  | ok x =>
    refine .bind_of_ok (h.exec_call_of_ok (s := registered t req .received location false) he) ?_
    cases x with
    | complete => exact absurd he hno
    | pending => exact hread
    | failed rc =>
      have hmoved := hread.trans (.moved hr rfl .finalized)
      refine .bind_of_ok (exec_setPhase hr) ?_
      split
      · exact .pure hmoved
      · exact (hmoved.log _ _).bind fun _ _ _ hu => .pure hu

theorem spares_contentPhase (hn : s.worker.slots[req]? = none)
    (hno : ∀ role k code u, ¬h.Starts s (.hook (.contentPhase req)) role k code u) :
    (h.contentPhase req).Leaves s.Spares s := by
  have hst : s.Spares (h.asked none (.location req) s) := .spoken (.asked_none rfl)
  cases he : (h.engine (.location req) s.shared.world).1 with
  | error message => exact .of_exec (exec_bind_of_error (h.exec_call_of_error he)) hst
  | ok location =>
    cases hcode : Option.bind location h.routes.handler? with
    | none =>
      refine .bind_of_ok (h.exec_call_of_ok he) ?_
      rw [hcode]
      exact (hst.log _ _).bind fun _ _ _ hu => .pure hu
    | some code =>
      have hnone : (h.asked none (.location req) s).worker.slots[req]? = none := hn
      have ht := exec_unregister_of_none hnone
      unfold Leaves
      rw [exec_contentPhase_of_some he hcode ht]
      exact spares_startBody hst hnone (fun hbody => hno _ _ _ _ (.routed he hcode ht hbody)) location

theorem spares_bodyReady (hh : h.Handles s)
    (hno : ∀ role k code u, ¬h.Starts s (.hook (.bodyReady req)) role k code u) : (h.bodyReady req).Leaves s.Spares s := by
  refine .bind_of_ok (exec_slotOf? req) ?_
  split
  · next k hk =>
    refine leaves_registration (.refl s) fun r hr => ?_
    split
    · next hp =>
      obtain ⟨code, hcode⟩ := Option.isSome_iff_exists.mp (hh k r hr hp)
      exact absurd (.read hk hr hp hcode) (hno .handler k code _)
    · exact .raise (.refl s)
  · exact (State.Spares.refl s).log _ _

theorem spares_reportFailed : h.reportFailed.Leaves s.Spares s := by
  refine .bind_of_ok rfl (.bind_of_ok exec_worker ?_)
  dsimp only
  split
  · refine ((State.Spares.refl s).log _ _).bind fun _ t _ ht => ?_
    exact ⟨fun hs => (ht.carries hs).of_unsent ⟨rfl, rfl, rfl⟩, fun hp hs => (ht.stands hp hs).of_eq rfl rfl, ht.ends,
      ht.anchorless, ht.calm⟩
  · exact .pure (.refl s)

/-- An act that starts no code. -/
theorem spares_act (hh : h.Handles s) (hallow : s.Allows a) (hno : ∀ role k code u, ¬h.Starts s a role k code u)
    (hnext : a = .next → s.shared.take.1 = none) : s.Spares (h.act s a) := by
  have same : ∀ {t : State δ ω}, t.worker.slots = s.worker.slots → t.worker.requests = s.worker.requests →
      t.worker.logger = s.worker.logger → t.shared = s.shared → s.Spares t := by
    intro t hslots hrequests hlogger hshared
    refine ⟨fun hs => hs.of_unsent (by constructor <;> rw [hshared]), fun _ hs => hs.of_eq hslots hrequests,
      by rw [hshared], fun ha k r hr => ha k r (hrequests ▸ hr), fun hl => hl.congr hlogger⟩
  cases a with
  | hook k =>
    cases k with
    | contentPhase req => exact spares_contentPhase hallow hno
    | bodyReady req => exact spares_bodyReady hh hno
    | released | newAnchor | subrequestDone => exact hallow.elim
    | tick => exact .refl s
    | selectPeer req pool => exact .spoken (.selectPeer req pool)
    | log level text => exact (State.Spares.refl s).log _ _
    | setFilter filter => exact same rfl rfl rfl rfl
    | setLogger filter logger =>
      refine ⟨fun hs => hs.of_unsent ⟨rfl, rfl, rfl⟩, fun _ hs => hs.of_eq rfl rfl, rfl, fun ha => ha, ?_⟩
      rintro - _ ⟨⟩
      exact hallow
    | workerId | activeRequests | liveSubrequests => exact .refl s
  | request | push => exact hallow.elim
  | data change => exact same rfl rfl rfl rfl
  | world change => exact .spoken (.world _)
  | awaitOffload index =>
    have hst : Served none s ((h.awaitOffload index).exec s).2 :=
      Services.served (a := ([], s)) (Services.awaitOffload .refl index)
    exact .served hst fun hs => hs.awaitOffload index
  | next =>
    rcases htake : s.shared.take with ⟨taken, sh⟩
    rw [htake] at hnext
    obtain rfl := hnext rfl
    show s.Spares (h.advanced s)
    unfold advanced
    rw [htake]
    refine ⟨fun hs => ?_, fun _ hs => hs.of_eq rfl rfl, ?_, fun ha => ha, fun hl => hl⟩
    · obtain ⟨waiting, lost, hs⟩ := hs
      obtain ⟨-, rfl⟩ := Shared.take_eq_none hs.queue htake
      exact ⟨waiting, lost, hs⟩
    · obtain ⟨queue, -, rfl⟩ := Shared.pop_of_take_none htake
      rfl
  | contained message => exact (State.Spares.refl s).log _ _
  | reported => exact spares_reportFailed

end Host

end EngineBridge
