import EngineBridge.Proofs.Panics
import EngineBridge.Proofs.Stumbling
import EngineBridge.Proofs.Ticking

/-! Which calls of a worker panic, where neither the engine nor the logger does. The body of a request is
    announced a second time, or a subrequest completes that is not live: these calls are rejected, and nothing
    else panics but application code. A guard or a tick contains that, unless it is to make the text of a fault that
    code under a guard has returned. -/

namespace EngineBridge
open EngineBridge.Action Registry
variable {δ ω α β : Type} {h : Host δ ω} {s t : State δ ω} {k : Nat} {r : Registration}

/-! ### What panics -/

/-- What a worker rejects, with the message of the panic. -/
inductive Worker.Rejects (w : Worker δ ω) : Hook ω → String → Prop
  /-- The request does not wait for its body. -/
  | again {req : ReqId} {r} : w.registration? req = some r → r.phase ≠ .received →
    w.Rejects (.bodyReady req) ("handler for request " ++ req.text ++ " invoked more than once")
  /-- The token is not that of a live subrequest. -/
  | dead {token : SubToken} {completion} : (∀ p, w.subrequests.get? token.slot = some p → p.serial ≠ token.serial) →
    w.Rejects (.subrequestDone token completion)
      ("subrequest completion fired twice or for an unknown token: " ++ token.text)

/-- A task can panic with a message: of itself, by what it asks of the worker, or by the code that it has run
    against a request. -/
inductive Task.Raises (h : Host δ ω) : Task δ ω → String → Prop
  | panic {message : String} : Raises h (.panic message) message
  | rejected {k : Hook ω} {next : k.Result → Task δ ω} {message} (w : Worker δ ω) :
    w.Rejects k message → Raises h (.hook k next) message
  | choked {k : Hook ω} {next : k.Result → Task δ ω} {message} (s : State δ ω) :
    h.Chokes s (.hook k) message → Raises h (.hook k next) message
  | code {req} {code : Callback δ ω} {next message} : code.Raises message → Raises h (.request req code next) message
  | hook {k : Hook ω} {next : k.Result → Task δ ω} {x message} :
    Raises h (next x) message → Raises h (.hook k next) message
  | request {req code} {next : Option (Except Fault Outcome) → Task δ ω} {x message} :
    Raises h (next x) message → Raises h (.request req code next) message
  | data {change : δ → δ} {next : δ → Task δ ω} {x message} :
    Raises h (next x) message → Raises h (.data change next) message
  | world {change : ω → ω} {next : ω → Task δ ω} {x message} :
    Raises h (next x) message → Raises h (.world change next) message
  | push {work} {next : Bool → Task δ ω} {x message} : Raises h (next x) message → Raises h (.push work next) message
  | failedCount {next : UInt64 → Task δ ω} {x message} :
    Raises h (next x) message → Raises h (.failedCount next) message
  | awaitOffload {index} {next : Bool → Task δ ω} {x message} :
    Raises h (next x) message → Raises h (.awaitOffload index next) message

/-- A closure taken from the queue can panic with a message. A continuation cannot of itself: its code is guarded. -/
def Work.Raises (h : Host δ ω) (s : State δ ω) : Work δ ω → String → Prop
  | .task code, message => code.Raises h message
  | .continuation _ _, message => h.Chokes s .next message

namespace Action

/-- An action is stopped by a panic, and not by one of the logger that it leaves set. -/
def Unwinds (a : Action δ ω α) (s : State δ ω) (message : String) : Prop :=
  ∃ t, a.exec s = (.error (.panic message), t) ∧ t.worker.LogsCalmly

variable {M : String → Prop} {message : String}

theorem unwinds_bind {a : Action δ ω α} {f : α → Action δ ω β} (hu : (a >>= f).Unwinds s message) :
    a.Unwinds s message ∨ ∃ x t, a.exec s = (.ok x, t) ∧ (f x).Unwinds t message := by
  obtain ⟨v, he, hl⟩ := hu
  rw [exec_bind] at he
  rcases hr : a.exec s with ⟨e | x, t⟩ <;> rw [hr] at he
  · cases he
    exact .inl ⟨v, hr, hl⟩
  · exact .inr ⟨x, t, rfl, v, he, hl⟩

theorem Raises.of_unwinds {a : Action δ ω α} (ha : a.Raises M s) (hu : a.Unwinds s message) : M message := by
  obtain ⟨t, he, hl⟩ := hu
  exact ha.only he (hl.congr (ha.keeps.exec he).symm)

theorem LogPanics.not_unwinds {a : Action δ ω α} (ha : a.LogPanics) : ¬ a.Unwinds s message := by
  rintro ⟨t, he, hl⟩
  exact ha s t message he hl

namespace Raises

/-! ### The course of a request -/

section
variable (hc : h.Calm)
include hc

theorem finalize (hr : s.worker.requests.get? k = some r) (ho : r.phase ≠ .finalized) (rc : Int32) :
    (h.finalize k rc).Sound s :=
  of_ok (hc.exec_finalize hr ho rc) rfl

theorem apply (hk : s.Runs k) (result : Except String Outcome) : (h.apply k result).Sound s := by
  obtain ⟨r, hr, hp⟩ := hk
  unfold Host.apply
  split
  · refine registration_bind hr ?_
    rw [if_pos hp.isOpen]
    exact of_ok (exec_setPhase hr) rfl
  · exact finalize hc hr hp.isOpen _
  · refine registration_bind hr ((log hc _ _).bind fun _ t he => ?_)
    -- The line that is logged leaves the registration where it is.
    have hst : Spoken none s t := (Spoken.log _ _).exec he
    obtain ⟨r', hr', hp'⟩ := hst.served.runs ⟨r, hr, hp⟩
    exact finalize hc hr' hp'.isOpen _

theorem runAs (hr : s.worker.requests.get? k = some r) (hp : r.phase = .handling ∨ r.phase = .resumed) {role : Role}
    {code : Callback δ ω} (hM : ∀ message,
      h.Stumbles (h.runCallback k code) (Host.noted s (.started role r.serial)) message → M message) :
    (h.runAs k role code).Raises M s := by
  have hst : Served (some k) (Host.noted s (.started role r.serial))
      ((h.runCallback k code).exec (Host.noted s (.started role r.serial))).2 := Served.runCallback code
  refine registration_bind hr (bind_of_ok (exec_record _) rfl ?_)
  refine guarded_bind (.runCallback code) hst.logger (fun result => ?_) hM
  exact (apply hc (hst.runs ⟨r, hr, hp⟩) result).mono fun _ => False.elim

theorem dispatch (hr : s.worker.requests.get? k = some r) (hM : ∀ code message,
      r.location.bind h.routes.handler? = some code →
      h.Stumbles (h.runCallback k code) (Host.handling s k r.serial) message → M message) :
    (h.dispatch k).Raises M s := by
  have hr' : (moved s k r.serial .handling).worker.requests.get? k = some { r with phase := .handling } :=
    get?_moved_self hr
  refine bind_of_ok (exec_setPhase hr) rfl (registration_bind hr' ?_)
  split
  · next code hcode => exact runAs hc hr' (.inl rfl) fun message => hM code message hcode
  · exact (apply hc ⟨_, hr', .inl rfl⟩ _).mono fun _ => False.elim

theorem startBody (hr : s.worker.requests.get? k = some r) {req : ReqId}
    (hM : (h.engine (.readBody req) s.shared.world).1 = .ok .complete → ∀ code message,
      r.location.bind h.routes.handler? = some code →
      h.Stumbles (h.runCallback k code) (Host.handling (h.asked (some r.serial) (.readBody req) s) k r.serial) message →
      M message) : (h.startBody k req).Raises M s := by
  obtain ⟨x, hx⟩ := hc (.readBody req) s.shared.world
  have hr' : (h.asked (some r.serial) (.readBody req) s).worker.requests.get? k = some r := hr
  refine registration_bind hr (bind_of_ok (h.exec_call_of_ok hx) rfl ?_)
  cases x with
  | complete => exact (dispatch hc hr' (hM hx)).bind fun _ _ _ => pure _
  | pending => exact pure _
  | failed rc =>
    refine bind_of_ok (exec_setPhase hr') rfl ?_
    split
    · exact pure _
    · exact (log hc _ _).bind fun _ _ _ => pure _

omit hc in
theorem unregister (hs : Course s) (req : ReqId) : (Registry.unregister req).Sound s := by
  cases hk : s.worker.slots[req]? with
  | none => exact of_ok (exec_unregister_of_none hk) rfl
  | some k =>
    obtain ⟨r, hr⟩ := hs.occupied hk
    exact of_ok (exec_unregister_of_some hk hr) rfl

theorem contentPhase (hs : Course s) (req : ReqId) :
    (h.contentPhase req).Raises (h.Chokes s (.hook (.contentPhase req))) s := by
  obtain ⟨location, hlocation⟩ := hc (.location req) s.shared.world
  refine bind_of_ok (h.exec_call_of_ok hlocation) rfl ?_
  split
  · exact (log hc _ _).bind fun _ _ _ => pure _
  · have ht : Course (h.asked none (.location req) s) := hs.served (Spoken.asked_none rfl : Spoken none s _).served
    refine ((unregister ht req).mono fun _ => False.elim).bind ?_
    intro _ u hu
    refine bind_of_ok (exec_register req _ _ _) rfl (startBody hc get?_registered_self ?_)
    intro hbody code message hcode hstumbles
    exact .request (.started (.routed hlocation hcode hu hbody)) hstumbles

/-- The body of a request is announced as it should be. -/
theorem bodyReady {req : ReqId} (hn : ∀ {k}, s.worker.slots[req]? = some k →
      ∃ r, s.worker.requests.get? k = some r ∧ r.phase = .received) :
    (h.bodyReady req).Raises (h.Chokes s (.hook (.bodyReady req))) s := by
  refine bind_of_ok (exec_slotOf? req) rfl ?_
  cases hk : s.worker.slots[req]? with
  | none => exact log hc _ _
  | some k =>
    obtain ⟨r, hr, hp⟩ := hn hk
    refine registration_bind hr ?_
    rw [if_pos hp]
    refine dispatch hc hr ?_
    intro code message hcode hstumbles
    exact .request (.started (.read hk hr hp hcode)) hstumbles

theorem newAnchor (server : UInt64) : (h.newAnchor server).Raises M s := by
  refine (call hc _ _).bind ?_
  intro reply _ _
  split
  · exact bind_of_ok rfl rfl (pure _)
  · exact pure _

theorem resume {target : Resumer} {ticket : Nat} {code : Callback δ ω}
    (hM : ∀ r message, s.worker.requests.get? target.slot = some r → r.serial = target.serial →
      r.phase = .handling ∨ r.phase = .suspended →
      h.Stumbles (h.runCallback target.slot code) (Host.resuming s target ticket) message → M message) :
    (h.resume target ticket code).Raises M s := by
  by_cases hrun : ∃ r, s.worker.requests.get? target.slot = some r ∧ r.serial = target.serial ∧
      (r.phase = .handling ∨ r.phase = .suspended)
  · obtain ⟨r, hr, hserial, hp⟩ := hrun
    have hst : Served (some target.slot) (Host.resuming s target ticket)
        ((h.runCallback target.slot code).exec (Host.resuming s target ticket)).2 := Served.runCallback code
    have hruns := hst.runs ⟨_, Host.get?_resuming hr hserial ticket, .inr rfl⟩
    refine of_exec_eq (Host.exec_resume_of_some hr hserial hp) hst.logger (explain_bind (fun result => ?_) ?_)
    · exact (apply hc hruns result).mono fun _ => False.elim
    · exact fun message hx => hM r message hr hserial hp (Host.stumbles_iff.mpr hx)
  · obtain ⟨notice, req, he⟩ := Host.exec_resume_of_rejected (h := h)
      (fun r hr hserial => not_or.mp fun hp => hrun ⟨r, hr, hserial, hp⟩) ticket code
    exact of_exec_eq he rfl (log hc notice req)

end

/-! ### Completions -/

section
variable {p : Pending δ ω} (hc : h.Calm) (hs : Course s)
include hc hs

theorem finalizeId (req : ReqId) (rc : Int32) : (h.finalizeId req rc).Sound s := by
  refine bind_of_ok (exec_slotOf? req) rfl ?_
  cases hk : s.worker.slots[req]? with
  | none => exact log hc _ _
  | some k =>
    obtain ⟨r, hr, -⟩ := hs.named hk
    refine registration_bind hr ?_
    split
    · exact log hc _ _
    · next ho => exact finalize hc hr ho rc

theorem finalizeBoth (rc : Int32) : (h.finalizeBoth p rc).Sound s := by
  refine (finalizeId hc hs p.root rc).bind ?_
  intro _ t he
  have ht : Course t := ((Course.keeps.settles p).finalizeId hs (.inl rfl) rc).exec he
  split
  · split
    · exact finalizeId hc ht _ rc
    · exact pure _
  · exact pure _

theorem abandon : (h.abandon p).Sound s := by
  have hs' : Course (Host.noted s (.destroyed p.ticket)) :=
    hs.served (Service.destroyed : Service h none ([p.ticket], s) ([], _)).served
  refine bind_of_ok (exec_record _) rfl ((log hc _ _).bind fun _ t he => ?_)
  have ht : Course t := (Course.keeps.log _ _ hs').exec he
  cases ho : t.worker.isOpen p.root with
  | false =>
    refine bind_of_ok (exec_openSlot?_of_not_open ho fun _ => ht.occupied) rfl ?_
    simp only [Option.isSome_none, Bool.false_eq_true, and_false, if_false]
    exact pure _
  | true =>
    obtain ⟨k, r, hk, hr, ho⟩ := isOpen_iff.mp ho
    refine bind_of_ok (exec_openSlot?_of_open hk hr ho) rfl ?_
    split
    · exact finalizeId hc ht _ _
    · exact pure _

theorem settle (hr : s.worker.requests.get? k = some r) (resumed : Bool) (result : Except String Outcome) :
    (h.settle p k resumed result).Sound s := by
  unfold Host.settle
  split
  · refine registration_bind hr ?_
    split
    · exact of_ok (exec_setPhase hr) rfl
    · exact pure _
  · exact finalizeBoth hc hs _
  · exact (log hc _ _).bind fun _ t he => finalizeBoth hc ((Course.keeps.log _ _ hs).exec he) _

theorem callBack (hr : s.worker.requests.get? k = some r) (ho : r.phase ≠ .finalized) {completion : Completion}
    (hM : ∀ message, h.Stumbles (h.runCallback k (p.done completion)) (Host.calling s p k r) message → M message) :
    (h.callBack p k completion).Raises M s := by
  obtain ⟨-, -, ⟨r', hr'⟩, hlogger, hcourse⟩ := Host.calledBack_tells (h := h) hr ho p completion
  refine of_exec_eq (Host.exec_callBack_eq hr ho p completion) hlogger (explain_bind (fun result => ?_) ?_)
  · exact (settle hc (hcourse hs) hr' _ result).mono fun _ => False.elim
  · exact fun message hx => hM message (Host.stumbles_iff.mpr hx)

theorem complete {completion : Completion} (hM : ∀ k r message, s.worker.slots[p.caller]? = some k →
      s.worker.requests.get? k = some r → r.phase ≠ .finalized →
      h.Stumbles (h.runCallback k (p.done completion)) (Host.calling s p k r) message → M message) :
    (h.complete p completion).Raises M s := by
  cases ho : s.worker.isOpen p.caller with
  | false =>
    have hslot := exec_openSlot?_of_not_open ho fun _ => hs.occupied
    exact bind_of_ok hslot rfl ((abandon hc hs).mono fun _ => False.elim)
  | true =>
    obtain ⟨k, r, hk, hr, ho⟩ := isOpen_iff.mp ho
    exact bind_of_ok (exec_openSlot?_of_open hk hr ho) rfl
      (callBack hc hs hr ho fun message => hM k r message hk hr ho)

end

theorem subrequestDone {token : SubToken} {p : Pending δ ω} (hc : h.Calm) (hs : Course s)
    (hp : s.worker.subrequests.get? token.slot = some p) (hserial : p.serial = token.serial)
    (hchild : p.child.isSome) (completion : Completion) :
    (h.subrequestDone token completion).Raises (h.Chokes s (.hook (.subrequestDone token completion))) s := by
  obtain ⟨child, hchild⟩ := Option.isSome_iff_exists.mp hchild
  have hcompleted : Deeds h ([], s) [p.ticket] (Host.completed s token) := .single (.completed hp hserial)
  have hu : Course (Host.arrived s token child) := Deeds.course hs (hcompleted.tail (.untargeted child))
  have hraises : (h.complete p completion).Raises (h.Chokes s (.hook (.subrequestDone token completion)))
      (Host.arrived s token child) :=
    complete hc hu fun k r message hk hr ho => .request (.called hp hserial hchild hk hr ho)
  have hexec := Host.exec_subrequestDone_of_child (h := h) hp hserial hchild completion
  refine ⟨.of_exec hexec hraises.keeps, fun {message t} he => ?_⟩
  rw [hexec] at he
  rcases hr : (h.complete p completion).exec (Host.arrived s token child) with ⟨result, u⟩
  rw [hr] at he
  cases he
  exact hraises.only hr

/-! ### Peers -/

section
variable (hc : h.Calm)
include hc

theorem resolvePeer {req : ReqId} {pool : UInt64} (hM : ∀ code message, h.routes.resolver? pool = some code →
      h.Stumbles (h.runResolver req pool code) s message → M message) : (h.resolvePeer req pool).Raises M s := by
  unfold Host.resolvePeer
  split
  · exact (log hc _ _).bind fun _ _ _ => pure _
  · next code hcode =>
    have hst : Spoken none s ((h.runResolver req pool code).exec s).2 := Spoken.runResolver req pool code
    refine guarded_bind (Errand.runResolver (h := h) (R := True) (C := True) req pool code).contained
      hst.served.logger (fun result => ?_) fun message => hM code message hcode
    split
    · exact pure _
    · exact (log hc _ _).bind fun _ _ _ => pure _
    · exact (log hc _ _).bind fun _ _ _ => pure _

theorem selectPeer (req : ReqId) (pool : UInt64) :
    (h.selectPeer req pool).Raises (h.Chokes s (.hook (.selectPeer req pool))) s := by
  have pick : (h.pickPeer req pool).Raises (h.Chokes s (.hook (.selectPeer req pool))) s := by
    refine bind_of_ok exec_worker rfl ?_
    split
    · exact pure _
    · next hn => exact resolvePeer hc fun code message => .resolver hn
  refine pick.bind ?_
  intro picked _ _
  unfold Host.storePeer
  split
  · exact pure _
  · refine (call hc _ _).bind ?_
    intro reply _ _
    split
    · exact pure _
    · exact (log hc _ _).bind fun _ _ _ => pure _

end
end Action.Raises

/-! ### What is asked of a worker -/

theorem Worker.Rejects.exec {hook : Hook ω} {message : String} (hr : s.worker.Rejects hook message)
    (tick : Action δ ω (List Nat)) : (h.perform tick hook).exec s = (.error (.panic message), s) := by
  cases hr with
  | @again req r hr hp =>
    obtain ⟨k, hk, hr⟩ := Option.bind_eq_some_iff.mp hr
    show (h.bodyReady req).exec s = _
    unfold Host.bodyReady
    rw [exec_bind_of_ok (exec_slotOf? req), hk]
    dsimp only
    rw [exec_bind_of_ok (exec_registration_of_some hr), if_neg hp]
    rfl
  | dead hn => exact Host.exec_subrequestDone_of_dead hn _

namespace Reachable
variable {hook : Hook ω} {message : String} {depth : Nat}

/-- Where a hook that is not rejected panics, it is because the logger does, or because the text of a fault cannot be
    made. A tick is apart: it panics with a logger that it sets itself. -/
theorem chokes_of_panic (hs : Reachable h s) (hc : h.Calm) (hn : ∀ message, ¬ s.worker.Rejects hook message)
    (htick : hook ≠ .tick) {tick : Action δ ω (List Nat)}
    (he : (h.perform tick hook).exec s = (.error (.panic message), t)) :
    t.worker.logger = s.worker.logger ∧ (s.worker.LogsCalmly → h.Chokes s (.hook hook) message) := by
  suffices hraises : (h.perform tick hook).Raises (h.Chokes s (.hook hook)) s from
    ⟨hraises.keeps.exec he, hraises.only he⟩
  cases hook with
  | contentPhase req => exact Raises.contentPhase hc hs.course req
  | bodyReady req =>
    refine Raises.bodyReady hc fun {k} hk => ?_
    obtain ⟨r, hr⟩ := hs.course.occupied hk
    refine ⟨r, hr, Decidable.byContradiction fun hp => hn _ (.again ?_ hp)⟩
    unfold Worker.registration?
    rw [hk]
    exact hr
  | released req =>
    refine ((Raises.unregister hs.course req).mono fun _ => False.elim).bind ?_
    exact fun _ _ _ => .of_ok (exec_modifyWorker _) rfl
  | newAnchor server => exact Raises.newAnchor hc server
  | tick => exact absurd rfl htick
  | subrequestDone token completion =>
    by_cases hp : ∃ p, s.worker.subrequests.get? token.slot = some p ∧ p.serial = token.serial
    · obtain ⟨p, hp, hserial⟩ := hp
      exact Raises.subrequestDone hc hs.course hp hserial (hs.childed hc hp) completion
    · exact absurd (.dead fun p hp' hserial => hp ⟨p, hp', hserial⟩) (hn _)
  | selectPeer req pool => exact Raises.selectPeer hc req pool
  | log level text => exact Raises.log hc _ _
  | setFilter filter => exact .of_ok (t := { s with worker := { s.worker with filter } }) rfl rfl
  | setLogger filter logger => cases he
  | workerId | activeRequests | liveSubrequests => exact .bind_of_ok exec_worker rfl (.pure _)

theorem rejects_of_unwinds (hs : Reachable h s) (hc : h.Calm)
    (hu : (h.perform (h.tickWithin depth) hook).Unwinds s message) :
    s.worker.Rejects hook message ∨ h.Chokes s (.hook hook) message := by
  by_cases hr : ∃ message, s.worker.Rejects hook message
  · obtain ⟨message', hr⟩ := hr
    obtain ⟨t, he, -⟩ := hu
    rw [hr.exec] at he
    cases he
    exact .inl hr
  · have hn : ∀ message, ¬ s.worker.Rejects hook message := fun message h => hr ⟨message, h⟩
    by_cases htick : hook = .tick
    · subst htick
      exact absurd hu (((LogPanics.tickWithin hc depth).bind fun _ => .pure _).not_unwinds)
    · obtain ⟨t, he, hl⟩ := hu
      obtain ⟨hlogger, hchokes⟩ := hs.chokes_of_panic hc hn htick he
      exact .inr (hchokes (hl.congr hlogger.symm))

theorem unwinds_of_chokes (hs : Reachable h s) (hc : h.Calm) (hl : s.worker.LogsCalmly)
    (hchokes : h.Chokes s (.hook hook) message) (tick : Action δ ω (List Nat)) :
    (h.perform tick hook).Unwinds s message := by
  obtain ⟨t, he⟩ := hchokes.exec_perform tick
  refine ⟨t, he, ?_⟩
  by_cases hr : ∃ message, s.worker.Rejects hook message
  · obtain ⟨message', hr⟩ := hr
    rw [hr.exec] at he
    cases he
    exact hl
  · have htick : hook ≠ .tick := by
      rintro rfl
      cases hchokes with
      | request henters => cases henters with
        | started hstart => cases hstart
    exact hl.congr (hs.chokes_of_panic hc (fun message h => hr ⟨message, h⟩) htick he).1

theorem exec_perform (hs : Reachable h s) (hc : h.Calm) (hl : s.worker.LogsCalmly)
    (hn : ∀ message, ¬ s.worker.Rejects hook message) (hchokes : ∀ message, ¬ h.Chokes s (.hook hook) message)
    (htick : hook ≠ .tick) (tick : Action δ ω (List Nat)) : ∃ x t, (h.perform tick hook).exec s = (.ok x, t) := by
  rcases he : (h.perform tick hook).exec s with ⟨(message | _) | x, t⟩
  · exact absurd ((hs.chokes_of_panic hc hn htick he).2 hl) (hchokes message)
  · exact absurd he ((Errand.perform (R := True) (C := True) htick (fun _ => trivial) (fun _ => trivial) tick).contained s t)
  · exact ⟨x, t, rfl⟩

/-! ### Code that acts on a worker -/

theorem useRequest (hs : Reachable h s) (hc : h.Calm) (req : ReqId) (code : Callback δ ω) :
    (h.useRequest req code).Raises code.Raises s := by
  refine .bind_of_ok (exec_slotOf? req) rfl ?_
  cases hk : s.worker.slots[req]? with
  | none => exact .pure _
  | some k =>
    obtain ⟨r, hr, -⟩ := hs.course.named hk
    exact (hc.runCallback code hr).bind fun _ _ _ => .pure _

/-- What is done with a worker either panics itself or leaves the worker in a reachable state to what follows. -/
theorem unwinds_bind (hs : Reachable h s) {a : Action δ ω α} {f : α → Action δ ω β} (ha : a.Leaves (Steps h s) s)
    (hu : (a >>= f).Unwinds s message) :
    a.Unwinds s message ∨ ∃ x t, Reachable h t ∧ (f x).Unwinds t message := by
  rcases Action.unwinds_bind hu with hu | ⟨x, t, he, hu⟩
  · exact .inl hu
  · exact .inr ⟨x, t, hs.steps (ha.exec he), hu⟩

/-- A task that panics does so of itself, by what it asks of the worker, or by the code that it has run. -/
theorem runTask (hc : h.Calm) (depth : Nat) : ∀ (code : Task δ ω) {s : State δ ω}, Reachable h s →
    ∀ {message}, (h.runTask (h.tickWithin depth) code).Unwinds s message → code.Raises h message
  | .done, _, _, _, hu => by
    obtain ⟨t, he, -⟩ := hu
    cases he
  | .panic _, _, _, _, hu => by
    obtain ⟨t, he, -⟩ := hu
    cases he
    exact .panic
  | .hook k next, s, hs, _, hu => by
    rcases hs.unwinds_bind (Steps.perform (Steps.tickWithin depth) k) hu with hu | ⟨x, t, ht, hu⟩
    · exact (hs.rejects_of_unwinds hc hu).elim (.rejected s.worker) (.choked s)
    · exact .hook (runTask hc depth (next x) ht hu)
  | .request req code next, s, hs, _, hu => by
    rcases hs.unwinds_bind (Steps.one (.request req code)) hu with hu | ⟨x, t, ht, hu⟩
    · exact .code ((hs.useRequest hc req code).of_unwinds hu)
    · exact .request (runTask hc depth (next x) ht hu)
  | .data change next, _, hs, _, hu => by
    rcases hs.unwinds_bind (Steps.one (.data change)) hu with ⟨t, he, -⟩ | ⟨x, t, ht, hu⟩
    · cases he
    · exact .data (runTask hc depth (next x) ht hu)
  | .world change next, _, hs, _, hu => by
    rcases hs.unwinds_bind (Steps.one (.world change)) hu with ⟨t, he, -⟩ | ⟨x, t, ht, hu⟩
    · cases he
    · exact .world (runTask hc depth (next x) ht hu)
  | .push work next, _, hs, _, hu => by
    rcases hs.unwinds_bind (Steps.one (.push work)) hu with ⟨t, he, -⟩ | ⟨x, t, ht, hu⟩
    · cases he
    · exact .push (runTask hc depth (next x) ht hu)
  | .failedCount next, _, hs, _, hu => .failedCount (runTask hc depth (next _) hs hu)
  | .awaitOffload index next, _, hs, _, hu => by
    rcases hs.unwinds_bind (Steps.one (.awaitOffload index)) hu with ⟨t, he, -⟩ | ⟨x, t, ht, hu⟩
    · cases he
    · exact .awaitOffload (runTask hc depth (next x) ht hu)

/-- A closure that a tick takes from the queue panics only if it is a task, or if the text of a fault cannot be made. -/
theorem runParcel (hs : Reachable h s) (hc : h.Calm) {p : Parcel δ ω} {sh : Shared δ ω}
    (htake : s.shared.take = (some p, sh))
    (hu : (h.runParcel (h.tickWithin depth) p).Unwinds { s with shared := sh } message) :
    p.work.Raises h s message := by
  obtain ⟨x, code | ⟨target, code⟩⟩ := p
  · rcases Action.unwinds_bind hu with ⟨t, he, -⟩ | ⟨_, t, he, hu⟩
    · cases he
    · cases he
      exact runTask hc depth code (hs.step (.task htake)) hu
  · have hresume : (h.resume target x code).Raises (h.Chokes s .next) { s with shared := sh } :=
      Raises.resume hc fun r message hr hserial hp => .request (.started (.resumed htake hr hserial hp))
    exact hresume.of_unwinds hu

end Reachable

end EngineBridge
