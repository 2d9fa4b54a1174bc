import EngineBridge.Proofs.Closures
import EngineBridge.Proofs.Errands

/-! Continuations. A resumer names a registration by its slot and its serial number. Slots are used again
    and a request can be registered again, but serial numbers are not given twice, so a continuation that
    comes late is run against the registration that its resumer was taken from, or not at all. -/

namespace EngineBridge
open EngineBridge.Action Registry
variable {δ ω : Type} {h : Host δ ω} {s t u : State δ ω} {k n x : Nat} {r : Registration} {target : Resumer}
  {code : Callback δ ω}

/-! ### A line of the log -/

/-- Entries that a line of the log leaves. -/
def Entry.OfLog : Entry → Prop
  | .logged _ _ | .called none (.log _ _) _ => True
  | _ => False

/-- From one state to another, a line has been logged at most, whatever the engine and the logger do. -/
structure Logged (s t : State δ ω) : Prop where
  worker : t.worker = s.worker
  shared : t.shared = { s.shared with world := t.shared.world, journal := t.shared.journal }
  entries : ∃ es, t.shared.journal = es ++ s.shared.journal ∧ (∀ e ∈ es, e.OfLog) ∧
    es.countP (fun e => e matches .logged _ _) ≤ 1

theorem Logged.log (notice : Log.Notice) (req : Option ReqId) : (h.log notice req).Leaves (Logged s) s := by
  unfold Host.log
  refine .bind_of_ok exec_worker ?_
  split
  · refine .bind_of_ok (exec_record _) ?_
    dsimp only
    split
    · next logger _ =>
      refine .bind_of_ok (exec_shared _) ?_
      have ht : ∀ w, Logged s { s with shared := { s.shared.record (.logged notice req) with world := w } } :=
        fun w => ⟨rfl, rfl, [.logged notice req], rfl, by simp [Entry.OfLog], by simp⟩
      dsimp only
      split
      · exact .pure (ht _)
      · exact .raise (ht _)
    · exact h.leaves_call.mpr
        ⟨rfl, rfl, [.called none (.log _ _) _, .logged notice req], rfl, by simp [Entry.OfLog], by simp⟩
  · exact ⟨rfl, rfl, [], rfl, by simp, by simp⟩

/-! ### Resumers -/

/-- A resumer names a registration that has been made. -/
def Journal.Grants (j : Journal) (target : Resumer) : Prop :=
  ∃ p, .registered target.serial target.req target.slot p ∈ j

/-- What code takes from its request names the registration that the code runs against. -/
theorem Course.grants (hs : Course s) (hr : s.worker.requests.get? k = some r) :
    ∃ target, (h.answer k .resumer).exec s = (.ok target, s) ∧ target.slot = k ∧ target.serial = r.serial ∧
      s.shared.journal.Grants target := by
  refine ⟨⟨k, r.serial, r.id⟩, ?_, rfl, rfl, hs.entered hr⟩
  exact exec_bind_of_ok (exec_registration_of_some hr)

/-- The registration with a serial number is held, and is at a point where it can be resumed. -/
def Worker.Resumable (w : Worker δ ω) (n : Nat) : Prop :=
  ∃ k r, w.requests.get? k = some r ∧ r.serial = n ∧ (r.phase = .handling ∨ r.phase = .suspended)

/-- A serial number leads to the slot that the resumer names, if it leads anywhere. -/
theorem Course.named_of_grants (hs : Course s) (hg : s.shared.journal.Grants target)
    (hr : s.worker.requests.get? k = some r) (hserial : r.serial = target.serial) :
    k = target.slot ∧ r.id = target.req := by
  obtain ⟨p, hp⟩ := hg
  obtain ⟨p', hp'⟩ := hs.entered hr
  rw [hserial] at hp'
  obtain ⟨hid, hk, -⟩ := hs.lawful.registered_inj hp' hp
  exact ⟨hk, hid⟩

/-! ### What becomes of a continuation -/

namespace Host

/-- The state in which a continuation has begun to run against the registration that it resumes. -/
def resuming (s : State δ ω) (target : Resumer) (ticket : Nat) : State δ ω :=
  begun (moved s target.slot target.serial .resumed) ticket (.continuation ticket) target.serial

theorem get?_resuming (hr : s.worker.requests.get? target.slot = some r) (hserial : r.serial = target.serial)
    (x : Nat) : (resuming s target x).worker.requests.get? target.slot = some { r with phase := .resumed } := by
  rw [resuming, ← hserial]
  exact get?_moved_self hr

/-- What comes of code that runs against the registration in a slot, and of acting on its result. -/
def applied (h : Host δ ω) (u : State δ ω) (k : Nat) (code : Callback δ ω) : Except Stop Unit × State δ ω :=
  (h.explain (held ((h.runCallback k code).exec u).1) >>= h.apply k).exec ((h.runCallback k code).exec u).2

theorem exec_resume_of_some (hr : s.worker.requests.get? target.slot = some r)
    (hserial : r.serial = target.serial) (hp : r.phase = .handling ∨ r.phase = .suspended) :
    (h.resume target x code).exec s = h.applied (resuming s target x) target.slot code := by
  have hf : (s.worker.requests.get? target.slot).filter (·.serial = target.serial) = some r := by
    rw [hr]
    simp [hserial]
  have hresume : (h.resume target x code).exec s =
      (h.runAs target.slot (.continuation x) code).exec (noted (moved s target.slot r.serial .resumed) (.ran x)) := by
    unfold Host.resume
    rw [exec_bind_of_ok exec_worker, hf]
    dsimp only
    rcases hp with hp | hp <;> rw [hp]
    · exact (exec_bind_of_ok (exec_setPhase hr)).trans (exec_bind_of_ok (exec_record _))
    · exact (exec_bind_of_ok (exec_setPhase hr)).trans (exec_bind_of_ok (exec_record _))
  have hreg : (registration target.slot).exec (noted (moved s target.slot r.serial .resumed) (.ran x)) =
      (.ok { r with phase := .resumed }, _) := exec_registration_of_some (get?_moved_self hr)
  rw [hresume]
  refine (exec_bind_of_ok hreg).trans ((exec_bind_of_ok (exec_record _)).trans ?_)
  rw [hserial]
  exact (Contained.runCallback code).exec_guarded_bind (resuming s target x)

/-- A continuation is destroyed, and a line is logged, if what its resumer names is not there or is at no
    point where it can be resumed. -/
theorem exec_resume_of_rejected (hn : ∀ r, s.worker.requests.get? target.slot = some r →
      r.serial = target.serial → r.phase ≠ .handling ∧ r.phase ≠ .suspended) (x : Nat) (code : Callback δ ω) :
    ∃ notice req, (h.resume target x code).exec s = (h.log notice req).exec (noted s (.destroyed x)) := by
  unfold Host.resume
  rw [exec_bind_of_ok exec_worker]
  split
  · exact ⟨_, _, exec_bind_of_ok (exec_record _)⟩
  · next r hr =>
    obtain ⟨hr, hserial⟩ := Option.filter_eq_some_iff.mp hr
    obtain ⟨hhandling, hsuspended⟩ := hn r hr (of_decide_eq_true hserial)
    split
    · next hp => exact absurd hp hhandling
    · next hp => exact absurd hp hsuspended
    · exact ⟨_, _, exec_bind_of_ok (exec_record _)⟩
    · exact ⟨_, _, exec_bind_of_ok (exec_record _)⟩
    · exact ⟨_, _, exec_bind_of_ok (exec_record _)⟩

/-- A continuation whose registration cannot be resumed is destroyed, and a line is logged. -/
theorem exec_resume_of_not_resumable (hn : ¬s.worker.Resumable target.serial) (x : Nat) (code : Callback δ ω) :
    ∃ notice req, (h.resume target x code).exec s = (h.log notice req).exec (noted s (.destroyed x)) :=
  exec_resume_of_rejected (fun r hr hserial =>
    ⟨fun hp => hn ⟨_, r, hr, hserial, .inl hp⟩, fun hp => hn ⟨_, r, hr, hserial, .inr hp⟩⟩) x code

end Host

/-- What a continuation leaves of the state in which it has begun to run. -/
theorem Deeds.resumed (hr : s.worker.requests.get? target.slot = some r) (hserial : r.serial = target.serial)
    (hp : r.phase = .handling ∨ r.phase = .suspended) (x : Nat) (code : Callback δ ω) :
    (Host.resuming s target x).shared.journal <:+ ((h.resume target x code).exec s).2.shared.journal := by
  rw [Host.exec_resume_of_some hr hserial hp]
  have hs : (Host.resuming s target x).Runs target.slot := ⟨_, Host.get?_resuming hr hserial x, .inr rfl⟩
  rcases hrun : (h.runCallback target.slot code).exec (Host.resuming s target x) with ⟨result, t⟩
  have hst : Services h (some target.slot) ([], Host.resuming s target x) [] t :=
    (Services.runCallback code .refl).exec hrun
  have ht : Turns h none ([], Host.resuming s target x) [] t := Turns.services .refl hst
  -- Whatever text is made of the result, acting on it only adds to the journal.
  have happlied : (h.explain (held result) >>= h.apply target.slot).Leaves
      (Turns h none ([], Host.resuming s target x) []) t :=
    Host.leaves_explain_bind (fun result' _ => Turns.apply ht ((Services.served hst).runs hs) result') fun _ _ => ht
  unfold Host.applied
  rw [hrun]
  exact Deeds.grows (happlied.exec rfl).deeds

/-- A continuation that a tick takes from the queue. It is run just if the registration that its resumer
    was taken from is held and can be resumed, and then once, against that registration; else it is
    destroyed, and nothing happens but that a line is logged. At every moment code is given resumers of the
    registration that it runs against, and they name it from then on. -/
theorem Reachable.resumption_law (hs : Reachable h s) {sh : Shared δ ω}
    (htake : s.shared.take = (some ⟨x, .continuation target code⟩, sh)) (hgrants : s.shared.journal.Grants target) :
    let s' : State δ ω := { s with shared := sh }
    let t := ((h.resume target x code).exec s').2
    (s.worker.Resumable target.serial →
      (∃ r, s.worker.requests.get? target.slot = some r ∧ r.serial = target.serial ∧ r.id = target.req) ∧
      (h.resume target x code).exec s' = h.applied (Host.resuming s' target x) target.slot code ∧
      ∀ u, Steps h t u → u.shared.journal.count (.ran x) = 1 ∧ u.shared.journal.count (.destroyed x) = 0 ∧
        ∀ n, u.shared.journal.count (.started (.continuation x) n) = if n = target.serial then 1 else 0) ∧
    (¬s.worker.Resumable target.serial →
      Logged (Host.noted s' (.destroyed x)) t ∧
      ∀ u, Steps h t u → u.shared.journal.count (.ran x) = 0 ∧ u.shared.journal.count (.destroyed x) = 1 ∧
        ∀ n, u.shared.journal.count (.started (.continuation x) n) = 0) ∧
    ∀ {X u k r}, Deeds h ([], s) X u → u.worker.requests.get? k = some r →
      ∃ resumer, (h.answer k .resumer).exec u = (.ok resumer, u) ∧ resumer.slot = k ∧ resumer.serial = r.serial ∧
        ∀ {Y v}, Deeds h (X, u) Y v → v.shared.journal.Grants resumer := by
  intro s' t
  have ht : Reachable h t := hs.step (.continuation htake)
  -- What the journal tells once, it tells from then on.
  have later : ∀ {u e}, Steps h t u → e ∈ t.shared.journal → e ∈ u.shared.journal := fun hu he =>
    (Deeds.grows (hu.deeds ht)).subset he
  refine ⟨?_, ?_, fun hu hr => ?_⟩
  · rintro ⟨k, r, hr, hserial, hp⟩
    obtain ⟨rfl, hid⟩ := hs.course.named_of_grants hgrants hr hserial
    have hr' : s'.worker.requests.get? target.slot = some r := hr
    have hgrows := (Deeds.resumed (h := h) hr' hserial hp x code).subset
    refine ⟨⟨r, hr, hserial, hid⟩, Host.exec_resume_of_some hr' hserial hp, fun u hu => ?_⟩
    have hran : .ran x ∈ u.shared.journal := later hu (hgrows (List.mem_cons_of_mem _ List.mem_cons_self))
    have hstarted : .started (.continuation x) target.serial ∈ u.shared.journal :=
      later hu (hgrows List.mem_cons_self)
    have hacc := (ht.steps hu).accounted
    obtain ⟨hone, hzero⟩ := hacc.count_of_ran hran
    exact ⟨hone, hzero, hacc.count_started rfl hstarted⟩
  · intro hn
    have hn' : ¬s'.worker.Resumable target.serial := hn
    obtain ⟨notice, req, hexec⟩ := Host.exec_resume_of_not_resumable (h := h) hn' x code
    have hlogged : Logged (Host.noted s' (.destroyed x)) t := by
      show Logged _ ((h.resume target x code).exec s').2
      rw [hexec]
      exact (Logged.log notice req).exec rfl
    refine ⟨hlogged, fun u hu => ?_⟩
    have hdestroyed : .destroyed x ∈ t.shared.journal := by
      obtain ⟨es, hes, -⟩ := hlogged.entries
      rw [hes]
      exact List.mem_append_right es List.mem_cons_self
    have hacc := (ht.steps hu).accounted
    obtain ⟨hzero, hone⟩ := hacc.count_of_destroyed (later hu hdestroyed)
    refine ⟨hzero, hone, fun n => ?_⟩
    have hbegun := hacc.begun x
    have := Journal.count_le_begun (e := .started (.continuation x) n) rfl u.shared.journal
    omega
  · obtain ⟨resumer, hanswer, hslot, hserial, p, hp⟩ := (Deeds.course hs.course hu).grants (h := h) hr
    exact ⟨resumer, hanswer, hslot, hserial, fun hv => ⟨p, (Deeds.grows hv).subset hp⟩⟩

/-- A continuation that a handler has pushed before it has left its request open. -/
theorem resumption_law_when_suspended :
    let h : Host Unit Unit := .prompt ⟨9⟩ (.call .resumer fun target =>
      .push (.continuation target (.finish (.ok .ok))) fun _ => .finish (.ok .async))
    ∃ s x target code sh, Reachable h s ∧ s.shared.take = (some ⟨x, .continuation target code⟩, sh) ∧
      ((h.resume target x code).exec { s with shared := sh }).2.shared.journal.count (.ran x) = 1 := by
  intro h
  obtain ⟨s, hs, htake, hgrants, hr⟩ : ∃ s, Reachable h s ∧
      (s.shared.take.1.bind fun p => match p.work with
        | .continuation target _ => some target
        | .task _ => none) = some ⟨0, 1, ⟨1⟩⟩ ∧
      .registered 1 ⟨1⟩ 0 .received ∈ s.shared.journal ∧
      (s.worker.requests.get? 0).map (fun r => (r.serial, r.phase)) = some (1, .suspended) :=
    ⟨((h.run (.hook (.contentPhase ⟨1⟩) fun _ => .done)).exec State.fresh).2, Reachable.fresh.run _,
      by decide +kernel, by decide +kernel, by decide +kernel⟩
  obtain ⟨r, hr, hfields⟩ := Option.map_eq_some_iff.mp hr
  rw [Prod.mk.injEq] at hfields
  obtain ⟨hserial, hphase⟩ := hfields
  rcases ht : s.shared.take with ⟨_ | ⟨x, _ | ⟨target, code⟩⟩, sh⟩
  · rw [ht] at htake
    cases htake
  · rw [ht] at htake
    cases htake
  · rw [ht] at htake
    cases htake
    obtain ⟨hlive, -⟩ := Reachable.resumption_law hs ht ⟨_, hgrants⟩
    obtain ⟨-, -, hfate⟩ := hlive ⟨0, r, hr, hserial, .inr hphase⟩
    exact ⟨s, x, _, code, sh, hs, ht, (hfate _ .refl).1⟩

end EngineBridge
