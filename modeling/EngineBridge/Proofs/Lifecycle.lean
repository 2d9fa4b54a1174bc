import EngineBridge.Proofs.Errands
import EngineBridge.Proofs.Turns

/-! What is asked of a worker is done in turns, whether it ends or panics: ending a request, running code
    against it, the hooks of the engine, continuations and completions, and the choice of a peer. -/

namespace EngineBridge
open EngineBridge.Action Registry
variable {δ ω : Type} {h : Host δ ω} {c : Option (Pending δ ω)} {a : List Nat × State δ ω} {X : List Nat}
  {s t : State δ ω} {k : Nat} {r : Registration}

/-! ### What keeps a property of the state -/

/-- A property of the state is kept when a line is logged and when the registration to which the name of the
    root or of the caller of a subrequest leads comes to its end. -/
structure Settles (h : Host δ ω) (p : Pending δ ω) (P : State δ ω → Prop) : Prop where
  log : ∀ {s} (notice : Log.Notice) (req : Option ReqId), P s → (h.log notice req).Leaves P s
  ended : ∀ {s} {req : ReqId} {k r} (rc : Int32), req = p.root ∨ req = p.caller → s.worker.slots[req]? = some k →
    s.worker.requests.get? k = some r → r.phase ≠ .finalized → P s → P (h.ended s k r rc)

namespace Settles
variable {p : Pending δ ω} {P : State δ ω → Prop}

theorem finalizeId (hp : Settles h p P) (hs : P s) {req : ReqId} (hreq : req = p.root ∨ req = p.caller) (rc : Int32) :
    (h.finalizeId req rc).Leaves P s := by
  refine .bind_of_ok (exec_slotOf? req) ?_
  cases hslot : s.worker.slots[req]? with
  | none => exact hp.log _ _ hs
  | some k =>
    refine leaves_registration hs ?_
    intro r hr
    split
    · exact hp.log _ _ hs
    · next ho =>
      refine .bind_of_ok (exec_registration_of_some hr) ?_
      rw [if_neg ho]
      exact .bind_of_ok (exec_setPhase hr) (h.leaves_call.mpr (hp.ended rc hreq hslot hr ho hs))

theorem finalizeBoth (hp : Settles h p P) (hs : P s) (rc : Int32) : (h.finalizeBoth p rc).Leaves P s := by
  refine (hp.finalizeId hs (.inl rfl) rc).bind ?_
  intro _ t _ ht
  split
  · next main hmain =>
    have hcaller : main = p.caller := by
      unfold Pending.caller
      rw [hmain]
      rfl
    split
    · exact hp.finalizeId ht (.inr hcaller) rc
    · exact .pure ht
  · exact .pure ht

theorem abandon (hp : Settles h p P) (hs : P (Host.noted s (.destroyed p.ticket))) : (h.abandon p).Leaves P s := by
  refine .bind_of_ok (exec_record _) ((hp.log _ _ hs).bind fun _ t _ ht => ?_)
  refine (leaves_openSlot? ht p.root).bind ?_
  intro root u _ hu
  split
  · exact hp.finalizeId hu (.inl rfl) _
  · exact .pure hu

/-- What comes after a callback, if the property is kept when the registration waits again. -/
theorem settle (hp : Settles h p P) (hs : P s) (hm : ∀ {r}, s.worker.requests.get? k = some r →
      r.phase = .resumed → P (moved s k r.serial .suspended)) (resumed : Bool) (result : Except String Outcome) :
    (h.settle p k resumed result).Leaves P s := by
  unfold Host.settle
  split
  · refine leaves_registration hs ?_
    intro r hr
    split
    · next hphase =>
      simp only [Bool.and_eq_true, beq_iff_eq] at hphase
      exact .of_exec (exec_setPhase hr) (hm hr hphase.2)
    · exact .pure hs
  · exact hp.finalizeBoth hs _
  · exact (hp.log _ _ hs).bind fun _ _ _ ht => hp.finalizeBoth ht _

end Settles

/-- A property of the state is kept when a line is logged and when the registration to which a request's
    name leads comes to its end. -/
structure Keeps (h : Host δ ω) (P : State δ ω → Prop) : Prop where
  log : ∀ {s} (notice : Log.Notice) (req : Option ReqId), P s → (h.log notice req).Leaves P s
  ended : ∀ {s} {req : ReqId} {k r} (rc : Int32), s.worker.slots[req]? = some k →
    s.worker.requests.get? k = some r → r.phase ≠ .finalized → P s → P (h.ended s k r rc)

theorem Keeps.settles {P : State δ ω → Prop} (hk : Keeps h P) (p : Pending δ ω) : Settles h p P where
  log := hk.log
  ended rc _ := hk.ended rc

/-- Lines that are logged and ends of requests leave requests on their course. -/
theorem Course.keeps : Keeps h Course where
  log notice req hs :=
    (Spoken.log (h := h) notice req).mono fun _ (hst : Spoken none _ _) => hs.served hst.served
  ended rc _ hr ho hs := (Deed.ended (X := []) rc hr ho).course hs

namespace Turns

theorem services {slot : Option Nat} {Y : List Nat} (hs : Turns h c a X s) (hst : Services h slot (X, s) Y t) :
    Turns h c a Y t :=
  hs.trans (Relation.ReflTransGen.mono (fun _ _ => Turn.service) _ _ hst)

theorem service {Y : List Nat} (hs : Turns h c a X s) (hst : Service h none (X, s) (Y, t)) : Turns h c a Y t :=
  hs.tail (.service hst)

theorem speak {α : Type} {act : Action δ ω α} (hs : Turns h c a X s) (ha : act.Leaves (Spoken none s) s) :
    act.Leaves (Turns h c a X) s :=
  ha.mono fun _ hst => service hs (.spoken (.aside hst))

theorem log (hs : Turns h c a X s) (notice : Log.Notice) (req : Option ReqId) :
    (h.log notice req).Leaves (Turns h c a X) s :=
  speak hs (.log notice req)

theorem ask (hs : Turns h c a X s) {q : Call} (hq : q.asks) : (h.call none q).Leaves (Turns h c a X) s :=
  speak hs (h.leaves_call.mpr (.asked_none hq))

theorem destroyed {x : Nat} (hs : Turns h c a (x :: X) s) :
    (Action.record (.destroyed x) : Action δ ω Unit).Leaves (Turns h c a X) s :=
  service hs .destroyed

/-! ### Running code -/

/-- Code leaves the registration that it runs against at the point where it is. -/
theorem runCallback (hs : Turns h c a X s) (code : Callback δ ω) :
    (h.guarded (h.runCallback k code)).Leaves (fun t => Turns h c a X t ∧ Served (some k) s t) s :=
  h.leaves_guarded ((Services.runCallback code .refl).mono fun _ hst =>
    ⟨services hs hst, Services.served (a := (X, s)) hst⟩)

theorem finalize (hs : Turns h none a X s) (hk : s.Runs k) (rc : Int32) :
    (h.finalize k rc).Leaves (Turns h none a X) s := by
  obtain ⟨r, hr, hp⟩ := hk
  refine .bind_of_ok (exec_registration_of_some hr) ?_
  rw [if_neg hp.isOpen]
  exact .bind_of_ok (exec_setPhase hr) (h.leaves_call.mpr (hs.tail (.ended rc hr hp)))

theorem apply (hs : Turns h none a X s) (hk : s.Runs k) (result : Except String Outcome) :
    (h.apply k result).Leaves (Turns h none a X) s := by
  obtain ⟨r, hr, hp⟩ := hk
  unfold Host.apply
  split
  · refine .bind_of_ok (exec_registration_of_some hr) ?_
    rw [if_pos hp.isOpen]
    exact .of_exec (exec_setPhase hr) (hs.tail (.left hr hp))
  · exact finalize hs ⟨r, hr, hp⟩ _
  · next message =>
    refine .bind_of_ok (exec_registration_of_some hr) ?_
    have hlog : (h.log (.handlerFailed message) (some r.id)).Leaves (Spoken none s) s := .log _ _
    have hspeak : ∀ t, Spoken none s t → Turns h none a X t := fun t hst => service hs (.spoken (.aside hst))
    exact hlog.bind_mono hspeak fun _ t _ hst => finalize (hspeak t hst) (hst.served.runs ⟨r, hr, hp⟩) _

theorem runAs {role : Role} (hr : s.worker.requests.get? k = some r) (hp : r.Running)
    (hs : Turns h none a X (Host.noted s (.started role r.serial))) (code : Callback δ ω) :
    (h.runAs k role code).Leaves (Turns h none a X) s :=
  .bind_of_ok (exec_registration_of_some hr) <| .bind_of_ok (exec_record _) <|
    (runCallback hs code).bind_mono (fun _ => And.left) fun result _ _ ht =>
      apply ht.1 (ht.2.runs ⟨r, hr, hp⟩) result

theorem dispatch (hs : Turns h none a X s) (hr : s.worker.requests.get? k = some r) (hp : r.phase = .received) :
    (h.dispatch k).Leaves (Turns h none a X) s := by
  have hr' : (moved s k r.serial .handling).worker.requests.get? k = some { r with phase := .handling } :=
    get?_moved_self hr
  refine .bind_of_ok (exec_setPhase hr) (.bind_of_ok (exec_registration_of_some hr') ?_)
  split
  · next code hcode => exact runAs hr' (.inl rfl) (hs.tail (.handled hr hp hcode)) code
  · next hcode => exact apply (hs.tail (.unhandled hr hp hcode)) ⟨_, hr', .inl rfl⟩ _

/-! ### What the engine asks -/

theorem startBody {req : ReqId} (hs : Turns h none a X s) (hr : s.worker.requests.get? k = some r)
    (hp : r.phase = .received) (hid : r.id = req) : (h.startBody k req).Leaves (Turns h none a X) s := by
  subst hid
  refine .bind_of_ok (exec_registration_of_some hr) ?_
  cases he : (h.engine (.readBody r.id) s.shared.world).1 with
  | error message =>
    exact .of_exec (exec_bind_of_error (h.exec_call_of_error he)) (hs.tail (.read hr hp (by simp [he])))
  | ok x =>
    refine .bind_of_ok (h.exec_call_of_ok he) ?_
    cases x with
    | complete =>
      have ht := hs.tail (.read hr hp (by simp [he]))
      exact (dispatch ht hr hp).bind fun _ _ _ hu => .pure hu
    | pending => exact hs.tail (.read hr hp (by simp [he]))
    | failed rc =>
      have ht := hs.tail (.unread hr hp he)
      refine .bind_of_ok (exec_setPhase hr) ?_
      split
      · exact .pure ht
      · exact (log ht _ _).bind fun _ _ _ hu => .pure hu

theorem unregister (hs : Turns h none a X s) (req : ReqId) :
    (Registry.unregister req).Leaves (Turns h none a X) s := by
  cases hk : s.worker.slots[req]? with
  | none => exact .of_exec (exec_unregister_of_none hk) hs
  | some k =>
    refine .bind_of_ok exec_worker ?_
    rw [hk]
    refine leaves_registration hs ?_
    intro r hr
    exact hs.tail (.removed hk hr)

theorem contentPhase (hs : Turns h none a X s) (req : ReqId) :
    (h.contentPhase req).Leaves (Turns h none a X) s := by
  refine (ask hs rfl).bind ?_
  intro location t _ ht
  split
  · exact (log ht _ _).bind fun _ _ _ hu => .pure hu
  · next hcode =>
    rw [Option.isNone_iff_eq_none, ← ne_eq, Option.ne_none_iff_isSome] at hcode
    refine (unregister ht req).bind fun _ u _ hu => .bind_of_ok (exec_register req _ _ _) ?_
    exact startBody (hu.tail (.registered req hcode)) get?_registered_self rfl rfl

theorem bodyReady (hs : Turns h none a X s) (req : ReqId) : (h.bodyReady req).Leaves (Turns h none a X) s := by
  refine .bind_of_ok (exec_slotOf? req) ?_
  split
  · refine leaves_registration hs ?_
    intro r hr
    split
    · next hp => exact dispatch hs hr hp
    · exact .raise hs
  · exact log hs _ _

theorem released (hs : Turns h none a X s) (req : ReqId) :
    (Host.released req : Action δ ω Unit).Leaves (Turns h none a X) s :=
  (unregister hs req).bind fun _ _ _ ht => ht.tail (.untargeted req)

theorem newAnchor (hs : Turns h none a X s) (server : UInt64) :
    (h.newAnchor server).Leaves (Turns h none a X) s := by
  refine (ask hs rfl).bind ?_
  intro reply t _ ht
  split
  · next req _ => exact .bind_of_ok rfl (.pure (ht.tail (.anchored req)))
  · exact .pure ht

/-! ### Continuations and completions -/

theorem continued {ticket : Nat} (hs : Turns h none a (ticket :: X) s) (hr : s.worker.requests.get? k = some r)
    (hp : r.Resumable) (code : Callback δ ω) : Action.Leaves (do
      Registry.setPhase k .resumed
      Action.record (.ran ticket)
      h.runAs k (.continuation ticket) code) (Turns h none a X) s := by
  refine .bind_of_ok (exec_setPhase hr) (.bind_of_ok (exec_record _) ?_)
  exact runAs (s := Host.noted (moved s k r.serial .resumed) (.ran ticket)) (get?_moved_self hr) (.inr rfl)
    (hs.tail (.continued hr hp)) code

theorem resume {ticket : Nat} (hs : Turns h none a (ticket :: X) s) (target : Resumer) (code : Callback δ ω) :
    (h.resume target ticket code).Leaves (Turns h none a X) s := by
  refine .bind_of_ok exec_worker ?_
  split
  · exact (destroyed hs).bind fun _ _ _ ht => log ht _ _
  · next r hr =>
    obtain ⟨hr, -⟩ := Option.filter_eq_some_iff.mp hr
    split
    · next hp => exact continued hs hr (.inl hp) code
    · next hp => exact continued hs hr (.inr hp) code
    · exact (destroyed hs).bind fun _ _ _ ht => log ht _ _
    · exact (destroyed hs).bind fun _ _ _ ht => log ht _ _
    · exact (destroyed hs).bind fun _ _ _ ht => log ht _ _

section
variable {p : Pending δ ω}

theorem settles : Settles h p (Turns h (some p) a X) where
  log notice req hs := log hs notice req
  ended rc hreq hk hr ho hs := hs.tail (.closed rc hreq hk hr ho)

/-- What follows the start of a callback. -/
theorem called (hr : s.worker.requests.get? k = some r) (ho : r.phase ≠ .finalized) (completion : Completion) :
    (h.callBack p k completion).Leaves (Turns h (some p)
      (X, Host.begun (Deeds.waited s k r) p.ticket (.callback p.ticket) r.serial) X) s := by
  obtain ⟨r', hr', hserial, -⟩ := Deeds.get?_waited hr ho
  rw [← hserial]
  refine .bind_of_ok (Deeds.exec_resumeWaiting hr) (.bind_of_ok (exec_record _) ?_)
  refine .bind_of_ok (exec_registration_of_some hr') (.bind_of_ok (exec_record _) ?_)
  refine (runCallback (k := k) .refl _).bind_mono (fun _ => And.left) fun result _ _ ⟨hv, _⟩ => ?_
  exact settles.settle hv (fun hr hp => hv.tail (.left hr (.inr hp))) _ result

theorem callBack (hs : Turns h (some p) a (p.ticket :: X) s) (hk : s.worker.slots[p.caller]? = some k)
    (hr : s.worker.requests.get? k = some r) (ho : r.phase ≠ .finalized) (completion : Completion) :
    (h.callBack p k completion).Leaves (Turns h (some p) a X) s :=
  (called hr ho completion).mono fun _ ht => (hs.tail (.called hk hr ho)).trans ht

theorem complete (hs : Turns h (some p) a (p.ticket :: X) s) (completion : Completion)
    (hn : ∀ {k}, s.worker.slots[p.caller]? = some k → ∃ r, s.worker.requests.get? k = some r) :
    (h.complete p completion).Leaves (Turns h (some p) a X) s := by
  cases ho : s.worker.isOpen p.caller with
  | false =>
    exact .bind_of_ok (exec_openSlot?_of_not_open ho fun k hk => hn hk) (settles.abandon (service hs .destroyed))
  | true =>
    obtain ⟨k, r, hk, hr, ho⟩ := isOpen_iff.mp ho
    exact .bind_of_ok (exec_openSlot?_of_open hk hr ho) (callBack hs hk hr ho completion)

theorem completeChild (hs : Turns h (some p) a (p.ticket :: X) s) (completion : Completion)
    (hn : ∀ {k}, s.worker.slots[p.caller]? = some k → ∃ r, s.worker.requests.get? k = some r) :
    (h.completeChild p completion).Leaves (Turns h (some p) a X) s := by
  unfold Host.completeChild
  split
  · exact (destroyed hs).bind fun _ _ _ ht => .raise ht
  · next child _ =>
    exact .bind_of_ok (exec_modifyWorker _) (complete (hs.tail (.untargeted child)) completion hn)

end
end Turns

/-! ### Completions as a whole -/

namespace Host
variable {token : SubToken} {p : Pending δ ω}

/-- The completion of a live subrequest comes to what follows from it comes to; in any case the subrequest
    does not count as live afterwards. -/
theorem exec_subrequestDone_of_live (hp : s.worker.subrequests.get? token.slot = some p)
    (hserial : p.serial = token.serial) (completion : Completion) :
    (h.subrequestDone token completion).exec s = (((h.completeChild p completion).exec (completed s token)).1,
      uncounted ((h.completeChild p completion).exec (completed s token)).2) := by
  have hf : (s.worker.subrequests.get? token.slot).filter (·.serial = token.serial) = some p := by
    rw [hp]
    simp [hserial]
  unfold Host.subrequestDone
  rw [exec_bind_of_ok exec_worker, hf]
  refine (exec_bind_of_ok (exec_modifyWorker _)).trans ((exec_bind_of_ok (exec_record _)).trans ?_)
  exact (Contained.completeChild p completion).exec_ensuring (fun _ => exec_modifyWorker _) _

/-- The state after the record of a subrequest with a child has been removed for its completion. -/
def arrived (s : State δ ω) (token : SubToken) (child : ReqId) : State δ ω :=
  { completed s token with
    worker := { (completed s token).worker with targets := s.worker.targets.erase child } }

/-- If its child has been made, it comes to what the callback and the ends of requests come to. -/
theorem exec_subrequestDone_of_child {child : ReqId} (hp : s.worker.subrequests.get? token.slot = some p)
    (hserial : p.serial = token.serial) (hchild : p.child = some child) (completion : Completion) :
    (h.subrequestDone token completion).exec s = (((h.complete p completion).exec (arrived s token child)).1,
      uncounted ((h.complete p completion).exec (arrived s token child)).2) := by
  have hcomplete : (h.completeChild p completion).exec (completed s token) =
      (h.complete p completion).exec (arrived s token child) := by
    unfold completeChild
    rw [hchild]
    exact exec_bind_of_ok (exec_modifyWorker _)
  rw [exec_subrequestDone_of_live hp hserial, hcomplete]

/-- No completion is acted on under a token that is not that of a live subrequest. -/
theorem exec_subrequestDone_of_dead
    (hn : ∀ p, s.worker.subrequests.get? token.slot = some p → p.serial ≠ token.serial) (completion : Completion) :
    (h.subrequestDone token completion).exec s =
      (.error (.panic ("subrequest completion fired twice or for an unknown token: " ++ token.text)), s) := by
  have hf : (s.worker.subrequests.get? token.slot).filter (·.serial = token.serial) = none := by
    rw [Option.filter_eq_none_iff]
    exact fun p hp => by simp [hn p hp]
  unfold Host.subrequestDone
  rw [exec_bind_of_ok exec_worker, hf]
  rfl

end Host

theorem Completes.of_subrequestDone {token : SubToken} {p : Pending δ ω} (hs : Course s)
    (hp : s.worker.subrequests.get? token.slot = some p) (hserial : p.serial = token.serial) (completion : Completion) :
    (h.subrequestDone token completion).Leaves (Completes h s token p) s := by
  refine .of_exec (Host.exec_subrequestDone_of_live hp hserial completion) (.intro hp hserial ?_)
  have ht : Turns h (some p) ([p.ticket], Host.completed s token) [p.ticket] (Host.completed s token) := .refl
  exact (Turns.completeChild ht completion fun hk => hs.occupied hk).exec rfl

end EngineBridge
