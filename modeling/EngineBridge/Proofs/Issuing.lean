import EngineBridge.Proofs.Live

/-! What is left of a subrequest for which no child is made. Its record is kept and counted before the engine is
    asked for the child, and both are taken back where the engine refuses; where the engine panics they stay. -/

namespace EngineBridge
open EngineBridge.Action Registry
variable {δ ω : Type} {h : Host δ ω} {s t u : State δ ω} {k : Nat} {r : Registration} {sub : Subrequest}
  {done : Completion → Callback δ ω}

/-- From one state to another a callback has been handed over and destroyed, and nothing else has changed but the
    next serial number: no request, no subrequest, not the count of those and no target. -/
structure State.Undone (s t : State δ ω) : Prop where
  worker : t.worker =
    { s.worker with
      requests := t.worker.requests, subrequests := t.worker.subrequests, nextSerial := t.worker.nextSerial }
  requests : ∀ k, t.worker.requests.get? k = s.worker.requests.get? k
  subrequests : ∀ slot, t.worker.subrequests.get? slot = s.worker.subrequests.get? slot
  serial : t.worker.nextSerial = s.worker.nextSerial ∨ t.worker.nextSerial = s.worker.nextSerial + 1
  shared : t.shared =
    { s.shared with
      world := t.shared.world, nextTicket := s.shared.nextTicket + 1, journal := t.shared.journal }
  entries : ∃ es, t.shared.journal = es ++ .handed s.shared.nextTicket :: s.shared.journal ∧
    .destroyed s.shared.nextTicket ∈ es ∧ ∀ e ∈ es, e = .destroyed s.shared.nextTicket ∨ e.Talk

/-- From one state to another the record of a subrequest without a child has been kept and counted. Its callback
    waits in it. -/
structure State.LeavesBehind (s t : State δ ω) (sub : Subrequest) (done : Completion → Callback δ ω) : Prop where
  worker : t.worker =
    { s.worker with
      subrequests := t.worker.subrequests, live := s.worker.live + 1, nextSerial := s.worker.nextSerial + 1 }
  record : ∃ root, t.worker.subrequests = s.worker.subrequests.insert
    { serial := s.worker.nextSerial, root, main := sub.main, target := sub.target.map Peer.ofSocketAddr,
      child := none, ticket := s.shared.nextTicket, done }
  entries : ∃ es, t.shared.journal = es ++ .handed s.shared.nextTicket :: s.shared.journal ∧ ∀ e ∈ es, e.Talk

/-- From one state to another a child has been made for a subrequest, or nothing is left of it. -/
def State.AllOrNothing (s : State δ ω) (token : SubToken) (t : State δ ω) : Prop :=
  t.shared.journal.issuedTokens = token :: s.shared.journal.issuedTokens ∨ s.Undone t

/-- The engine panics when it is asked for the child of a subrequest that a registration issues. -/
def Host.Breaks (h : Host δ ω) (s : State δ ω) (r : Registration) (sub : Subrequest) (message : String) : Prop :=
  r.phase ≠ .finalized ∧ (∃ root, (h.engine (.mainOf r.id) s.shared.world).1 = .ok root) ∧
    (h.engine (.subrequest r.id sub.toChildRequest ⟨s.worker.subrequests.nextSlot, s.worker.nextSerial⟩)
      (h.engine (.mainOf r.id) s.shared.world).2).1 = .error message

namespace State.Undone

/-- What is said afterwards undoes nothing of it. -/
theorem spoken (hst : s.Undone t) (htu : Spoken none t u) : s.Undone u where
  worker := by rw [htu.worker, hst.worker]
  requests k := (htu.others k nofun).trans (hst.requests k)
  subrequests slot := by rw [htu.worker, hst.subrequests]
  serial := by
    rw [htu.worker]
    exact hst.serial
  shared := by rw [htu.shared, hst.shared]
  entries := by
    obtain ⟨es, hes, hmem, hall⟩ := hst.entries
    obtain ⟨later, hlater, htalk⟩ := htu.entries
    refine ⟨later ++ es, by rw [hlater, hes, List.append_assoc], List.mem_append_right _ hmem, fun e he => ?_⟩
    rcases List.mem_append.mp he with he | he
    · exact .inr (htalk e he).1
    · exact hall e he

/-- The callback is destroyed where the request is over. -/
theorem refused (s : State δ ω) : s.Undone (Host.noted (Host.handed s) (.destroyed s.shared.nextTicket)) where
  worker := rfl
  requests _ := rfl
  subrequests _ := rfl
  serial := .inl rfl
  shared := rfl
  entries := ⟨[.destroyed _], rfl, by simp, by simp⟩

/-- The callback is destroyed where the engine panics when it is asked for the root. -/
theorem rootless (h : Host δ ω) (s : State δ ω) (r : Registration) :
    s.Undone (Host.noted (h.rooted (Host.handed s) r) (.destroyed s.shared.nextTicket)) where
  worker := rfl
  requests _ := rfl
  subrequests _ := rfl
  serial := .inr rfl
  shared := rfl
  entries := by
    refine ⟨[.destroyed _, .called _ _ _], rfl, by simp, fun e he => ?_⟩
    simp only [List.mem_cons, List.not_mem_nil, or_false] at he
    rcases he with he | rfl
    · exact .inl he
    · exact .inr trivial

/-- The record is taken back, and the callback destroyed, where the engine refuses to make the child. -/
theorem withdrawn (h : Host δ ω) (s : State δ ω) (r : Registration) (sub : Subrequest) (p : Pending δ ω) :
    s.Undone (Host.withdrawn (h.recorded (Host.handed s) r sub p) (Host.tokenOf (Host.handed s) p).slot
      s.shared.nextTicket) where
  worker := rfl
  requests _ := rfl
  subrequests slot := by
    show ((s.worker.subrequests.insert p).remove s.worker.subrequests.nextSlot).get? slot = _
    rw [Arena.get?_remove, Arena.get?_insert]
    -- the slot that the record was kept in had been free
    split
    · next hslot => rw [hslot, Arena.get?_nextSlot]
    · rfl
  serial := .inr rfl
  shared := rfl
  entries := by
    refine ⟨[.destroyed _, .called _ _ _, .called _ _ _], rfl, by simp, fun e he => ?_⟩
    simp only [List.mem_cons, List.not_mem_nil, or_false] at he
    rcases he with he | rfl | rfl
    · exact .inl he
    · exact .inr trivial
    · exact .inr trivial

end State.Undone

namespace Host

/-- Where a record has been kept, either a child is made or nothing is left, unless the engine panics. -/
theorem createChild_undone {root : ReqId}
    (hunbroken : ∀ message, (h.engine (childCall (handed s) r sub (recordOf s sub done root))
      (h.rooted (handed s) r).shared.world).1 ≠ .error message) :
    (h.createChild r sub s.shared.nextTicket (tokenOf (handed s) (recordOf s sub done root))).Leaves
      (s.AllOrNothing (tokenOf (handed s) (recordOf s sub done root)))
      (pended (h.rooted (handed s) r) (recordOf s sub done root)) := by
  refine leaves_createChild (p := recordOf s sub done root) rfl (fun message hmessage => ?_) (fun cause _ => ?_) fun child _ => ?_
  · exact absurd hmessage (hunbroken message)
  · have hgone : s.Undone (withdrawn (h.recorded (handed s) r sub (recordOf s sub done root))
      (tokenOf (handed s) (recordOf s sub done root)).slot s.shared.nextTicket) := .withdrawn h s r sub _
    exact (Spoken.log _ _).mono fun _ ht => .inr (hgone.spoken ht)
  · exact (steady_runPosted r).mono fun _ ht => .inl ht.issuedTokens

/-- A call that issues no subrequest leaves nothing of it, unless the engine panics when it is asked for the child. -/
theorem sendRequest_undone (hr : s.worker.requests.get? k = some r)
    (hunbroken : ∀ message, ¬h.Breaks s r sub message) : (h.sendRequest k sub done).Leaves
      (s.AllOrNothing ⟨s.worker.subrequests.nextSlot, s.worker.nextSerial⟩) s := by
  refine leaves_sendRequest hr (.inr (.refused s)) (fun _ _ _ => .inr (.rootless h s r)) fun root ho hp => ?_
  exact createChild_undone fun message hmessage => hunbroken message ⟨ho, ⟨root, hp.root⟩, hmessage⟩

/-- Where the engine panics when it is asked for the child, the record stays. -/
theorem sendRequest_of_breaks {message : String} (hr : s.worker.requests.get? k = some r)
    (hbreaks : h.Breaks s r sub message) (done : Completion → Callback δ ω) :
    ∃ t, (h.sendRequest k sub done).exec s = (.error (.panic message), t) ∧ s.LeavesBehind t sub done := by
  obtain ⟨ho, ⟨root, hroot⟩, hmessage⟩ := hbreaks
  refine ⟨h.recorded (handed s) r sub (recordOf s sub done root), ?_, rfl, ⟨root, rfl⟩, [.called _ _ _, .called _ _ _],
    rfl, by simp [Entry.Talk]⟩
  have hlive : r.checkLive = .ok () := if_neg ho
  unfold sendRequest
  rw [exec_bind_of_ok (exec_registration_of_some hr), exec_bind_of_ok (exec_hand s), hlive]
  dsimp only
  refine (exec_bind_of_ok exec_freshSerial).trans ?_
  refine (exec_bind_of_ok (exec_onPanic_of_ok (h.exec_call_of_ok (s := numbered (handed s)) hroot))).trans ?_
  refine (exec_bind_of_ok (exec_addPending _ (recordOf s sub done root))).trans ?_
  exact exec_bind_of_error (h.exec_call_of_error hmessage)

/-- Where the engine panics when it is asked for the root, no subrequest is issued. -/
theorem sendRequest_rootless {message : String} (hr : s.worker.requests.get? k = some r)
    (hroot : (h.engine (.mainOf r.id) s.shared.world).1 = .error message) : (h.sendRequest k sub done).Leaves
      (fun t => t.shared.journal.issuedTokens = s.shared.journal.issuedTokens) s := by
  refine leaves_sendRequest hr rfl (fun _ _ _ => rfl) fun root _ hp => ?_
  cases hroot.symm.trans hp.root

/-- To issue a subrequest is all or nothing, unless the engine panics when it is asked for the child. No child is made
    where an error is returned, or where the engine panics when it is asked for the root. Where none is made, nothing
    is left: the callback has been destroyed, and requests, subrequests, their count and the targets are as before. But
    where the engine panics when it is asked for the child, the record stays and counts, with its callback and without
    a child. A panic reaches the code that issues the subrequest, and is its failure. -/
theorem issue_law {out : Except Stop (Except Error SubToken)} (hr : s.worker.requests.get? k = some r)
    (he : (h.sendRequest k sub done).exec s = (out, t)) :
    (∀ e, out = .ok (.error e) → t.shared.journal.issuedTokens = s.shared.journal.issuedTokens) ∧
      (∀ message, (h.engine (.mainOf r.id) s.shared.world).1 = .error message →
        t.shared.journal.issuedTokens = s.shared.journal.issuedTokens) ∧
      (t.shared.journal.issuedTokens = s.shared.journal.issuedTokens → (∀ message, ¬h.Breaks s r sub message) →
        s.Undone t) ∧
      (∀ message, h.Breaks s r sub message → out = .error (.panic message) ∧ s.LeavesBehind t sub done) ∧
      ∀ message, out = .error (.panic message) → ∀ next,
        (h.guarded (h.runCallback k (.sendRequest sub done next))).exec s = (.ok (.error message), t) := by
  refine ⟨?_, fun message hroot => (sendRequest_rootless hr hroot).exec he, ?_, ?_, ?_⟩
  · rintro e rfl
    exact (sendRequest_tokens he).2
  · intro hnone hunbroken
    have ht : s.AllOrNothing _ t := (sendRequest_undone hr hunbroken).exec he
    refine ht.resolve_left fun hissued => ?_
    rw [hnone] at hissued
    exact List.cons_ne_self _ _ hissued.symm
  · intro message hbreaks
    obtain ⟨u, hu, hleft⟩ := sendRequest_of_breaks hr hbreaks done
    cases he.symm.trans hu
    exact ⟨rfl, hleft⟩
  · rintro message rfl next
    have hcode : (h.runCallback k (.sendRequest sub done next)).exec s = (.error (.panic message), t) :=
      exec_bind_of_error he
    rw [(Contained.runCallback _).exec_guarded s, hcode]
    rfl

end Host

/-- An engine that panics when it is asked for a child. -/
def Engine.barren (made : ReqId) : Engine δ ω := fun
  | .subrequest _ _ _, w => (.error "no child", w)
  | q, w => Engine.prompt made q w

/-- A subrequest of an anchor is left behind, and the code that issued it fails. -/
theorem issue_law_when_left_behind :
    let h : Host Unit Unit := .plain (Engine.barren ⟨9⟩) ⟨∅, ∅⟩ id
    let sub : Subrequest := { method := .get, uri := "/", args := none, headers := [], body := none, target := none, main := none }
    let done : Completion → Callback Unit Unit := fun _ => .finish (.ok .ok)
    ∃ s t, Reachable h s ∧ s.worker.live = 0 ∧ (h.sendRequest 0 sub done).exec s = (.error (.panic "no child"), t) ∧
      t.worker.live = 1 ∧ (t.worker.subrequests.get? 0).map Pending.child = some none ∧
      ∀ next, (h.guarded (h.runCallback 0 (.sendRequest sub done next))).exec s = (.ok (.error "no child"), t) := by
  intro h sub done
  obtain ⟨s, hs, hr, hlive, hsub⟩ : ∃ s, Reachable h s ∧
      s.worker.requests.get? 0 = some { id := ⟨9⟩, serial := 1, phase := .handling, location := none, anchor := true } ∧
      s.worker.live = 0 ∧ s.worker.subrequests = .empty :=
    ⟨((h.run (.hook (.newAnchor 0) fun _ => .done)).exec State.fresh).2, Reachable.fresh.run _, by decide +kernel,
      by decide +kernel, rfl⟩
  have hbreaks : ∀ s : State Unit Unit, h.Breaks s
      { id := ⟨9⟩, serial := 1, phase := .handling, location := none, anchor := true } sub "no child" := fun s =>
    ⟨nofun, ⟨_, rfl⟩, rfl⟩
  have he : (h.sendRequest 0 sub done).exec s =
      (((h.sendRequest 0 sub done).exec s).1, ((h.sendRequest 0 sub done).exec s).2) := rfl
  obtain ⟨-, -, -, hleaves, hcaught⟩ := Host.issue_law hr he
  obtain ⟨hout, hleft⟩ := hleaves _ (hbreaks s)
  obtain ⟨root, hrecord⟩ := hleft.record
  refine ⟨s, _, hs, hlive, by rw [← hout], ?_, ?_, hcaught _ hout⟩
  · rw [hleft.worker, hlive]
  · rw [hrecord, hsub]
    rfl

end EngineBridge
