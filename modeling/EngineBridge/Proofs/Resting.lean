import EngineBridge.Proofs.Handlers
import EngineBridge.Proofs.Stumbling

/-! Where requests are when nothing runs against them, where neither the engine nor the logger panics. Code that
    has been run against a request leaves it waiting or over, whatever it comes to, so a continuation that comes
    later never finds its request resumed already. Only where the text of its fault cannot be made, it leaves the
    request as it is. A handler is run once at most for each registration, when the body has been read. -/

namespace EngineBridge
open EngineBridge.Action Registry
variable {δ ω : Type} {h : Host δ ω} {s t : State δ ω} {k n : Nat} {r : Registration} {busy : Option Nat}
  {stuck : Nat → Prop}

/-! ### Registrations at rest -/

/-- Nothing runs against the registration. An anchor has no handler, and is from the first where others come
    when their handler is run. -/
structure Registration.Rests (r : Registration) : Prop where
  request : r.anchor = false → r.phase = .received ∨ r.phase = .suspended ∨ r.phase = .finalized
  anchor : r.anchor = true → r.phase = .handling ∨ r.phase = .suspended ∨ r.phase = .finalized

namespace Registration.Rests

theorem of_left (hp : r.phase = .suspended ∨ r.phase = .finalized) : r.Rests := ⟨fun _ => .inr hp, fun _ => .inr hp⟩

theorem congr {r' : Registration} (hr : r.Rests) (hc : r'.course = r.course) : r'.Rests := by
  obtain ⟨-, -, hphase, -, hanchor⟩ := Registration.course_inj hc
  constructor
  · rw [hanchor, hphase]
    exact hr.request
  · rw [hanchor, hphase]
    exact hr.anchor

theorem not_resumed (hr : r.Rests) : r.phase ≠ .resumed := by
  intro hp
  cases ha : r.anchor with
  | false => simpa [hp] using hr.request ha
  | true => simpa [hp] using hr.anchor ha

end Registration.Rests

/-- Registrations that differ in nothing that their course depends on are at rest alike, or stuck. -/
theorem Registration.rests_or_congr {r' : Registration} (hr : r.Rests ∨ stuck r.serial) (hc : r'.course = r.course) :
    r'.Rests ∨ stuck r'.serial := by
  obtain ⟨-, hserial, -⟩ := Registration.course_inj hc
  rw [hserial]
  exact hr.imp_left fun hr => hr.congr hc

/-- All registrations are at rest, but for those that are stuck, and for that in one slot if code is at work there. -/
structure State.Resting (stuck : Nat → Prop) (busy : Option Nat) (s : State δ ω) : Prop where
  rests : ∀ {k r}, s.worker.requests.get? k = some r → busy ≠ some k → r.Rests ∨ stuck r.serial

namespace State.Resting

theorem of_none (hs : s.Resting stuck none) : s.Resting stuck busy := ⟨fun hr _ => hs.rests hr nofun⟩

theorem of_eq (hs : s.Resting stuck busy) (hrequests : t.worker.requests = s.worker.requests) : t.Resting stuck busy :=
  ⟨fun hr hk => hs.rests (hrequests ▸ hr) hk⟩

theorem mono {stuck' : Nat → Prop} (hs : s.Resting stuck busy) (hstuck : ∀ n, stuck n → stuck' n) :
    s.Resting stuck' busy := ⟨fun hr hk => (hs.rests hr hk).imp_right (hstuck _)⟩

/-- Code has left the registration that it was at work on, and that is stuck. -/
theorem of_stuck (hs : s.Resting stuck (some k)) (hr : s.worker.requests.get? k = some r) (hstuck : stuck r.serial) :
    s.Resting stuck none := by
  refine ⟨fun {k' r'} hr' _ => ?_⟩
  by_cases hk : k' = k
  · subst hk
    cases hr.symm.trans hr'
    exact .inr hstuck
  · exact hs.rests hr' fun heq => hk (Option.some.inj heq).symm

theorem served {slot : Option Nat} (hs : s.Resting stuck busy) (hst : Served slot s t) : t.Resting stuck busy := by
  refine ⟨fun {k r} hr hk => ?_⟩
  have hcourse := hst.course k
  rw [hr] at hcourse
  obtain ⟨r', hr', hcourse⟩ := Option.map_eq_some_iff.mp hcourse.symm
  exact Registration.rests_or_congr (hs.rests hr' hk) hcourse.symm

theorem moved (hs : s.Resting stuck (some k)) (p : Phase) : (Registry.moved s k n p).Resting stuck (some k) := by
  refine ⟨fun {k' r} hr hk => ?_⟩
  rw [get?_moved, if_neg fun heq => hk (congrArg some heq.symm)] at hr
  exact hs.rests hr hk

/-- A registration that is left waiting or over is at rest. -/
theorem rests_moved {p : Phase} (hs : s.Resting stuck busy) (hp : p = .suspended ∨ p = .finalized) {k' : Nat}
    (hr : (Registry.moved s k n p).worker.requests.get? k' = some r) (hk : k' = k ∨ busy ≠ some k') :
    r.Rests ∨ stuck r.serial := by
  rw [get?_moved] at hr
  split at hr
  · obtain ⟨r', -, rfl⟩ := Option.map_eq_some_iff.mp hr
    exact .inl (.of_left hp)
  · next hne => exact hs.rests hr (hk.resolve_left hne)

theorem left {p : Phase} (hs : s.Resting stuck (some k)) (hp : p = .suspended ∨ p = .finalized) :
    (Registry.moved s k n p).Resting stuck none :=
  ⟨fun {k' _} hr _ => hs.rests_moved hp hr <|
    (Decidable.em (k' = k)).imp_right fun hne heq => hne (Option.some.inj heq).symm⟩

theorem keeps : Keeps h (State.Resting stuck busy) where
  log notice req hs := (Spoken.log (h := h) notice req).mono fun _ (hst : Spoken none _ _) => hs.served hst.served
  ended {_ _ k r} _ _ _ _ hs := ⟨fun hr hk => hs.rests_moved (k := k) (n := r.serial) (.inr rfl) hr (.inr hk)⟩

theorem registered {req : ReqId} {p : Phase} {location : Option UInt64} {anchor : Bool}
    (hs : s.Resting stuck none)
    (hp : Registration.Rests { id := req, serial := s.worker.nextSerial, phase := p, location, anchor }) :
    (Registry.registered s req p location anchor).Resting stuck none := by
  refine ⟨fun {k r} hr _ => ?_⟩
  rw [get?_registered] at hr
  split at hr
  · cases hr
    exact .inl hp
  · exact hs.rests hr nofun

theorem unregister (hs : s.Resting stuck none) (req : ReqId) :
    (Registry.unregister req).Leaves (fun t => t.Resting stuck none ∧ t.worker.logger = s.worker.logger) s := by
  cases hk : s.worker.slots[req]? with
  | none => exact .of_exec (exec_unregister_of_none hk) ⟨hs, rfl⟩
  | some k =>
    refine .bind_of_ok exec_worker ?_
    rw [hk]
    refine leaves_registration ⟨hs, rfl⟩ ?_
    intro r _
    exact ⟨⟨fun hr' _ => hs.rests (Arena.get?_of_remove hr').2 nofun⟩, rfl⟩

end State.Resting

/-! ### Running code -/

namespace Host.Calm
variable (hc : h.Calm)
include hc

theorem apply_rests (hl : s.worker.LogsCalmly) (hr : s.worker.requests.get? k = some r) (ho : r.phase ≠ .finalized)
    (hs : s.Resting stuck (some k)) (result : Except String Outcome) :
    (h.apply k result).Leaves (State.Resting stuck none) s := by
  have ended : ∀ {t r} (rc : Int32), t.worker.requests.get? k = some r → r.phase ≠ .finalized →
      t.Resting stuck (some k) → (h.finalize k rc).Leaves (State.Resting stuck none) t := by
    intro t r rc hr ho ht
    have hleft : (moved t k r.serial .finalized).Resting stuck none := ht.left (.inr rfl)
    exact .of_exec (hc.exec_finalize hr ho rc) (hleft.of_eq rfl)
  unfold Host.apply
  split
  · refine .bind_of_ok (exec_registration_of_some hr) ?_
    rw [if_pos ho]
    exact .of_exec (exec_setPhase hr) (hs.left (.inl rfl))
  · exact ended _ hr ho hs
  · next message =>
    refine .bind_of_ok (exec_registration_of_some hr) ?_
    obtain ⟨t, ht, hst⟩ := hc.exec_log hl (.handlerFailed message) (some r.id)
    obtain ⟨r', hr', hrr'⟩ := hst.served.get? hr
    have ho' : r'.phase ≠ .finalized := (Registration.course_inj hrr').2.2.1 ▸ ho
    exact .bind_of_ok ht (ended _ hr' ho' (hs.served hst.served))

theorem runAs_rests (hl : s.worker.LogsCalmly) (hr : s.worker.requests.get? k = some r) (ho : r.phase ≠ .finalized)
    (hs : s.Resting stuck (some k)) {role : Role} {code : Callback δ ω} (hstuck : ∀ message,
      h.Stumbles (h.runCallback k code) (noted s (.started role r.serial)) message → stuck r.serial) :
    (h.runAs k role code).Leaves (State.Resting stuck none) s := by
  have hst : Served (some k) (noted s (.started role r.serial))
      ((h.runCallback k code).exec (noted s (.started role r.serial))).2 := (Served.runCallback code).exec rfl
  obtain ⟨r', hr', hrr'⟩ := hst.get? (r := r) hr
  have ho' : r'.phase ≠ .finalized := (Registration.course_inj hrr').2.2.1 ▸ ho
  have hserial : r'.serial = r.serial := (Registration.course_inj hrr').2.1
  have hs' : (noted s (.started role r.serial)).Resting stuck (some k) := hs.of_eq rfl
  refine .bind_of_ok (exec_registration_of_some hr) (.bind_of_ok (exec_record _) ?_)
  refine leaves_guarded_bind (Contained.runCallback code) (fun result => ?_) fun message hmessage => ?_
  · exact hc.apply_rests (hl.congr hst.logger) hr' ho' (hs'.served hst) result
  · exact (hs'.served hst).of_stuck hr' (hserial ▸ hstuck message hmessage)

theorem dispatch_rests (hl : s.worker.LogsCalmly) (hr : s.worker.requests.get? k = some r) (hs : s.Resting stuck none)
    (hstuck : ∀ code message, r.location.bind h.routes.handler? = some code →
      h.Stumbles (h.runCallback k code) (handling s k r.serial) message → stuck r.serial) :
    (h.dispatch k).Leaves (State.Resting stuck none) s := by
  have hr' : (moved s k r.serial .handling).worker.requests.get? k = some { r with phase := .handling } :=
    get?_moved_self hr
  have ho : ({ r with phase := .handling } : Registration).phase ≠ .finalized := nofun
  have ht : (moved s k r.serial .handling).Resting stuck (some k) := hs.of_none.moved _
  refine .bind_of_ok (exec_setPhase hr) (.bind_of_ok (exec_registration_of_some hr') ?_)
  split
  · next code hcode =>
    exact hc.runAs_rests (s := moved s k r.serial .handling) hl hr' ho ht fun message => hstuck code message hcode
  · exact hc.apply_rests (s := moved s k r.serial .handling) hl hr' ho ht _

theorem startBody_rests (hl : s.worker.LogsCalmly) (hr : s.worker.requests.get? k = some r) (hs : s.Resting stuck none)
    {req : ReqId} (hstuck : (h.engine (.readBody req) s.shared.world).1 = .ok .complete → ∀ code message,
      r.location.bind h.routes.handler? = some code →
      h.Stumbles (h.runCallback k code) (handling (h.asked (some r.serial) (.readBody req) s) k r.serial) message →
      stuck r.serial) : (h.startBody k req).Leaves (State.Resting stuck none) s := by
  obtain ⟨x, hx⟩ := hc (.readBody req) s.shared.world
  let u := h.asked (some r.serial) (.readBody req) s
  have hr' : u.worker.requests.get? k = some r := hr
  have hu : u.Resting stuck none := hs.of_eq rfl
  refine .bind_of_ok (exec_registration_of_some hr) (.bind_of_ok (h.exec_call_of_ok hx) ?_)
  cases x with
  | complete => exact (hc.dispatch_rests (s := u) hl hr' hu (hstuck hx)).bind fun _ _ _ ht => .pure ht
  | pending => exact .pure hu
  | failed rc =>
    have hleft : (moved u k r.serial .finalized).Resting stuck none := hu.of_none.left (.inr rfl)
    refine .bind_of_ok (exec_setPhase hr') ?_
    split
    · exact .pure hleft
    · exact (State.Resting.keeps.log _ _ hleft).bind fun _ _ _ ht => .pure ht

theorem contentPhase_rests (hl : s.worker.LogsCalmly) (hs : s.Resting stuck none) {req : ReqId}
    (hstuck : ∀ n, h.Strands s (.hook (.contentPhase req)) n → stuck n) :
    (h.contentPhase req).Leaves (State.Resting stuck none) s := by
  obtain ⟨location, hlocation⟩ := hc (.location req) s.shared.world
  let u := h.asked none (.location req) s
  have hu : u.Resting stuck none := hs.of_eq rfl
  refine .bind_of_ok (h.exec_call_of_ok hlocation) ?_
  split
  · exact (State.Resting.keeps.log _ _ hu).bind fun _ _ _ ht => .pure ht
  · refine (hu.unregister req).bind_mono (fun _ => And.left) fun _ t he ⟨ht, hlogger⟩ => ?_
    refine .bind_of_ok (exec_register req _ _ _) ?_
    refine hc.startBody_rests (s := registered t req .received location false) (hl.congr hlogger)
      get?_registered_self (ht.registered ⟨fun _ => .inl rfl, nofun⟩) fun hbody code message hcode hmessage => ?_
    have hr : (h.reading t req location).worker.requests.get? t.worker.requests.nextSlot =
        some { id := req, serial := t.worker.nextSerial, phase := .received, location } := get?_registered_self
    have hstarts := Starts.routed hlocation hcode he hbody
    exact hstuck _ ⟨_, code, _, _, message, .started hstarts, get?_moved_self hr, rfl, hmessage⟩

theorem bodyReady_rests (hl : s.worker.LogsCalmly) (hs : s.Resting stuck none) {req : ReqId}
    (hstuck : ∀ n, h.Strands s (.hook (.bodyReady req)) n → stuck n) :
    (h.bodyReady req).Leaves (State.Resting stuck none) s := by
  refine .bind_of_ok (exec_slotOf? req) ?_
  split
  · next k hk =>
    refine leaves_registration hs fun r hr => ?_
    split
    · next hp =>
      refine hc.dispatch_rests hl hr hs fun code message hcode hmessage => ?_
      exact hstuck _ ⟨k, code, _, _, message, .started (.read hk hr hp hcode), get?_moved_self hr, rfl, hmessage⟩
    · exact .raise hs
  · exact State.Resting.keeps.log _ _ hs

theorem resume_rests (hl : s.worker.LogsCalmly) (hs : s.Resting stuck none) {target : Resumer} {ticket : Nat}
    {code : Callback δ ω} (hstuck : ∀ r message, s.worker.requests.get? target.slot = some r →
      r.serial = target.serial → r.phase = .handling ∨ r.phase = .suspended →
      h.Stumbles (h.runCallback target.slot code) (resuming s target ticket) message → stuck target.serial) :
    (h.resume target ticket code).Leaves (State.Resting stuck none) s := by
  have continued : ∀ {r}, s.worker.requests.get? target.slot = some r → r.serial = target.serial →
      r.phase = .handling ∨ r.phase = .suspended → Action.Leaves (do
        Registry.setPhase target.slot .resumed
        Action.record (.ran ticket)
        h.runAs target.slot (.continuation ticket) code) (State.Resting stuck none) s := by
    intro r hr hserial hp
    refine .bind_of_ok (exec_setPhase hr) (.bind_of_ok (exec_record _) ?_)
    rw [hserial]
    have ht : (noted (moved s target.slot target.serial .resumed) (.ran ticket)).Resting stuck (some target.slot) :=
      .of_eq (hs.of_none.moved (n := target.serial) .resumed) rfl
    have hr' : (noted (moved s target.slot target.serial .resumed) (.ran ticket)).worker.requests.get? target.slot =
        some { r with phase := .resumed } := hserial ▸ get?_moved_self hr
    refine hc.runAs_rests (s := noted (moved s target.slot target.serial .resumed) (.ran ticket)) hl hr' nofun ht
      fun message hmessage => ?_
    rw [hserial] at hmessage ⊢
    exact hstuck r message hr hserial hp hmessage
  have rejected : ∀ notice req, (h.log notice req).Leaves (State.Resting stuck none) (noted s (.destroyed ticket)) :=
    fun notice req => State.Resting.keeps.log _ _ (hs.of_eq rfl)
  refine .bind_of_ok exec_worker ?_
  split
  · exact .bind_of_ok (exec_record _) (rejected _ _)
  · next r hr =>
    obtain ⟨hr, hserial⟩ := Option.filter_eq_some_iff.mp hr
    split
    · next hp => exact continued hr (of_decide_eq_true hserial) (.inl hp)
    · next hp => exact continued hr (of_decide_eq_true hserial) (.inr hp)
    · exact .bind_of_ok (exec_record _) (rejected _ _)
    · exact .bind_of_ok (exec_record _) (rejected _ _)
    · exact .bind_of_ok (exec_record _) (rejected _ _)

/-! ### Completions -/

section
variable {p : Pending δ ω}

/-- The caller of a subrequest is ended with its root or as its main request. -/
theorem finalizeBoth_rests (hcourse : Course s) (hl : s.worker.LogsCalmly) (hk : s.worker.slots[p.caller]? = some k)
    (hr : s.worker.requests.get? k = some r) (ho : r.phase ≠ .finalized) (hs : s.Resting stuck (some k)) (rc : Int32) :
    (h.finalizeBoth p rc).Leaves (State.Resting stuck none) s := by
  obtain ⟨t, hexec, hends⟩ := hc.exec_finalizeBoth hcourse hl (p := p) (isOpen_iff.mpr ⟨k, r, hk, hr, ho⟩) rc
  have keeps : Keeps h fun u => u.Resting stuck (some k) ∧ u.worker.slots = s.worker.slots :=
    { log := fun notice req ⟨hu, hslots⟩ => (Spoken.log (h := h) notice req).mono
        fun _ (hst : Spoken none _ _) => ⟨hu.served hst.served, hst.served.slots.trans hslots⟩
      ended := fun rc hk hr ho ⟨hu, hslots⟩ => ⟨State.Resting.keeps.ended rc hk hr ho hu, hslots⟩ }
  obtain ⟨ht, hslots⟩ := ((keeps.settles p).finalizeBoth ⟨hs, rfl⟩ rc).exec hexec
  refine .of_exec hexec ⟨fun {k' r'} hr' _ => ?_⟩
  by_cases hk' : k' = k
  · subst hk'
    -- The name of the caller leads to that slot still, so the registration there is over.
    refine .inl (.of_left (.inr (Decidable.byContradiction fun ho' => ?_)))
    have hopen : t.worker.isOpen p.caller = true := isOpen_iff.mpr ⟨k', r', by rw [hslots]; exact hk, hr', ho'⟩
    refine ((hends.isOpen p.caller).mp hopen).2 (p.mem_ends_caller (fun heq => ?_) rc)
    rw [← heq]
    exact isOpen_iff.mpr ⟨k', r, hk, hr, ho⟩
  · exact ht.rests hr' fun heq => hk' (Option.some.inj heq).symm

/-- What follows a callback leaves the caller as it has been before, or over. -/
theorem settle_rests (hcourse : Course s) (hl : s.worker.LogsCalmly) (hk : s.worker.slots[p.caller]? = some k)
    (hr : s.worker.requests.get? k = some r) (ho : r.phase ≠ .finalized) (hs : s.Resting stuck (some k))
    {resumed : Bool} (hresumed : resumed = true ∧ r.phase = .resumed ∨ r.Rests ∨ stuck r.serial)
    (result : Except String Outcome) :
    (h.settle p k resumed result).Leaves (State.Resting stuck none) s := by
  unfold Host.settle
  split
  · refine .bind_of_ok (exec_registration_of_some hr) ?_
    split
    · exact .of_exec (exec_setPhase hr) (hs.left (.inl rfl))
    · next hphase =>
      simp only [Bool.and_eq_true, beq_iff_eq] at hphase
      refine .pure ⟨fun {k' r'} hr' _ => ?_⟩
      by_cases hk' : k' = k
      · subst hk'
        rw [hr] at hr'
        cases hr'
        exact hresumed.resolve_left hphase
      · exact hs.rests hr' fun heq => hk' (Option.some.inj heq).symm
  · exact hc.finalizeBoth_rests hcourse hl hk hr ho hs _
  · obtain ⟨t, ht, hst⟩ := hc.exec_log hl (.callbackFailed _) (some p.caller)
    obtain ⟨r', hr', hrr'⟩ := hst.served.get? hr
    have ho' : r'.phase ≠ .finalized := (Registration.course_inj hrr').2.2.1 ▸ ho
    have hk' : t.worker.slots[p.caller]? = some k := by
      rw [hst.served.slots]
      exact hk
    exact .bind_of_ok ht (hc.finalizeBoth_rests (hcourse.served hst.served) (hl.congr hst.served.logger) hk' hr' ho'
      (hs.served hst.served) 500)

theorem callBack_rests (hcourse : Course s) (hl : s.worker.LogsCalmly) (hk : s.worker.slots[p.caller]? = some k)
    (hr : s.worker.requests.get? k = some r) (ho : r.phase ≠ .finalized) (hs : s.Resting stuck none)
    {completion : Completion} (hstuck : ∀ message,
      h.Stumbles (h.runCallback k (p.done completion)) (calling s p k r) message → stuck r.serial) :
    (h.callBack p k completion).Leaves (State.Resting stuck none) s := by
  obtain ⟨r', hr', hserial, ho', -⟩ := Deeds.get?_waited hr ho
  let u := calling s p k r
  have hu : Course u := Deeds.course (a := ([p.ticket], s)) hcourse (calling_deeds (h := h) hr ho p)
  -- The caller moves on if it waits, and is where it has been otherwise.
  obtain ⟨hworker, hrest, hphase⟩ : (u.worker.slots = s.worker.slots ∧ u.worker.logger = s.worker.logger) ∧
      u.Resting stuck (some k) ∧ (r.phase = .suspended ∧ r'.phase = .resumed ∨ r'.Rests ∨ stuck r'.serial) := by
    have hworker : u.worker = (Deeds.waited s k r).worker := rfl
    rcases Deeds.waited_cases s k r with ⟨hwaited, hp⟩ | ⟨hwaited, hp⟩
    · rw [hwaited] at hworker hr'
      have hmoved : (moved s k r.serial .resumed).Resting stuck (some k) := hs.of_none.moved _
      cases (get?_moved_self hr).symm.trans hr'
      exact ⟨⟨by rw [hworker]; rfl, by rw [hworker]; rfl⟩, hmoved.of_eq (congrArg Worker.requests hworker),
        .inl ⟨hp, rfl⟩⟩
    · rw [hwaited] at hworker hr'
      cases hr.symm.trans hr'
      exact ⟨⟨congrArg Worker.slots hworker, congrArg Worker.logger hworker⟩,
        hs.of_none.of_eq (congrArg Worker.requests hworker), .inr (hs.rests hr nofun)⟩
  have huv : Served (some k) u (h.calledBack s p k r completion).2 := Served.runCallback (p.done completion)
  obtain ⟨r₁, hr₁, hrr₁⟩ := huv.get? (r := r') hr'
  obtain ⟨-, hserial₁, hphase₁, -⟩ := Registration.course_inj hrr₁
  unfold Leaves
  rw [exec_callBack_eq hr ho]
  refine leaves_explain_bind (fun result _ => ?_) fun message hx => ?_
  · refine hc.settle_rests (hu.served huv) (hl.congr (huv.logger.trans hworker.2)) ?_ hr₁ ?_ (hrest.served huv) ?_
      result
    · rw [huv.slots, hworker.1]
      exact hk
    · rw [hphase₁]
      exact ho'
    · exact hphase.imp (fun ⟨hp, hp'⟩ => ⟨decide_eq_true hp, hphase₁.trans hp'⟩) fun hr' =>
        Registration.rests_or_congr hr' hrr₁
  · refine (hrest.served huv).of_stuck hr₁ ?_
    rw [hserial₁, hserial]
    exact hstuck message (stumbles_iff.mpr hx)

theorem complete_rests (hcourse : Course s) (hl : s.worker.LogsCalmly) (hs : s.Resting stuck none)
    {completion : Completion} (hstuck : ∀ k r message, s.worker.slots[p.caller]? = some k →
      s.worker.requests.get? k = some r → r.phase ≠ .finalized →
      h.Stumbles (h.runCallback k (p.done completion)) (calling s p k r) message → stuck r.serial) :
    (h.complete p completion).Leaves (State.Resting stuck none) s := by
  cases hopen : s.worker.isOpen p.caller with
  | false =>
    refine .bind_of_ok (exec_openSlot?_of_not_open hopen fun _ => hcourse.occupied) ?_
    exact (State.Resting.keeps.settles p).abandon (hs.of_eq rfl)
  | true =>
    obtain ⟨k, r, hk, hr, ho⟩ := isOpen_iff.mp hopen
    exact .bind_of_ok (exec_openSlot?_of_open hk hr ho) <|
      hc.callBack_rests hcourse hl hk hr ho hs fun message => hstuck k r message hk hr ho

end

theorem subrequestDone_rests (hcourse : Course s) (hl : s.worker.LogsCalmly) (hs : s.Resting stuck none)
    {token : SubToken} {completion : Completion}
    (hstuck : ∀ n, h.Strands s (.hook (.subrequestDone token completion)) n → stuck n) :
    (h.subrequestDone token completion).Leaves (State.Resting stuck none) s := by
  by_cases hlive : ∃ p, s.worker.subrequests.get? token.slot = some p ∧ p.serial = token.serial
  · obtain ⟨p, hp, hserial⟩ := hlive
    have hdeed : Deed h ([], s) ([p.ticket], completed s token) := .completed hp hserial
    have hcompleted : (completed s token).Resting stuck none := hs.of_eq rfl
    have hrests : (h.completeChild p completion).Leaves (State.Resting stuck none) (completed s token) := by
      unfold completeChild
      cases hchild : p.child with
      | none => exact .bind_of_ok (exec_record _) (.raise (hcompleted.of_eq rfl))
      | some child =>
        have hcourse' : Course (arrived s token child) := (hdeed.course hcourse).of_eq rfl rfl (Nat.le_refl _) rfl
        refine .bind_of_ok (exec_modifyWorker _) ?_
        refine hc.complete_rests (s := arrived s token child) hcourse' hl (hs.of_eq rfl) ?_
        intro k r message hk hr ho hmessage
        obtain ⟨r', hr', hserial', -⟩ := Deeds.get?_waited (s := arrived s token child) hr ho
        exact hstuck _ ⟨k, _, _, r', message, .called hp hserial hchild hk hr ho, hr', hserial', hmessage⟩
    exact .of_exec (exec_subrequestDone_of_live hp hserial completion) (State.Resting.of_eq (hrests.exec rfl) rfl)
  · exact .of_exec (exec_subrequestDone_of_dead (fun p hp hserial => hlive ⟨p, hp, hserial⟩) completion) hs

/-! ### Steps -/

theorem perform_rests (hcourse : Course s) (hl : s.worker.LogsCalmly) (hs : s.Resting stuck none) {hook : Hook ω}
    (hstuck : ∀ n, h.Strands s (.hook hook) n → stuck n) :
    (h.perform (throw .overrun) hook).Leaves (State.Resting stuck none) s := by
  cases hook with
  | contentPhase req => exact hc.contentPhase_rests hl hs hstuck
  | bodyReady req => exact hc.bodyReady_rests hl hs hstuck
  | released req =>
    exact (hs.unregister req).bind_mono (fun _ => And.left) fun _ _ _ ht => ht.1.of_eq rfl
  | newAnchor server =>
    refine (h.leaves_call.mpr (hs.of_eq rfl)).bind ?_
    intro reply t _ ht
    split
    · next req _ =>
      have hanchor : (registered t req .handling none true).Resting stuck none :=
        ht.registered ⟨nofun, fun _ => .inl rfl⟩
      exact .bind_of_ok rfl (.pure hanchor)
    · exact .pure ht
  | subrequestDone token completion => exact hc.subrequestDone_rests hcourse hl hs hstuck
  | selectPeer req pool =>
    exact (Spoken.selectPeer req pool).mono fun _ (hst : Spoken none _ _) => hs.served hst.served
  | log level text => exact State.Resting.keeps.log _ _ hs
  | tick => exact hs
  | setFilter | setLogger | workerId | activeRequests | liveSubrequests => exact hs.of_eq rfl

end Host.Calm

/-- Every step leaves all registrations at rest that it finds so, but for those that it strands. -/
theorem Step.rests (hc : h.Calm) (hcourse : Course s) (hl : s.worker.LogsCalmly) (hs : s.Resting stuck none)
    (hst : Step h s t) (hstuck : ∀ {a n}, h.act s a = t → h.Strands s a n → stuck n) : t.Resting stuck none := by
  cases hst with
  | hook hook => exact hc.perform_rests hcourse hl hs fun n => hstuck rfl
  | request req code =>
    have hrests : (h.useRequest req code).Leaves (State.Resting stuck none) s := by
      refine .bind_of_ok (exec_slotOf? req) ?_
      split
      · exact Leaves.bind ((Served.runCallback code).mono fun _ ht => hs.served ht) fun _ _ _ ht => .pure ht
      · exact .pure hs
    exact hrests
  | data | world | push | nothing | task => exact hs.of_eq rfl
  | awaitOffload index => exact hs.of_eq rfl
  | @continuation x target code sh htake =>
    have hact : h.act s .next = ((h.resume target x code).exec { s with shared := sh }).2 := by
      unfold Host.act Host.advanced
      rw [htake]
      rfl
    have hrests : (h.resume target x code).Leaves (State.Resting stuck none) { s with shared := sh } := by
      refine hc.resume_rests (s := { s with shared := sh }) hl (hs.of_eq rfl) fun r message hr hserial hp hmessage => ?_
      have hr' := Host.get?_resuming (s := { s with shared := sh }) hr hserial x
      exact hstuck hact ⟨_, code, _, _, message, .started (.resumed htake hr hserial hp), hr', hserial, hmessage⟩
    exact hrests
  | contained message => exact State.Resting.keeps.log _ _ hs
  | reported =>
    have hrests : h.reportFailed.Leaves (State.Resting stuck none) s := by
      refine .bind_of_ok rfl (.bind_of_ok exec_worker ?_)
      dsimp only
      split
      · exact (State.Resting.keeps.log _ _ hs).bind fun _ _ _ ht => ht.of_eq rfl
      · exact .pure hs
    exact hrests

/-- In every state in which code can act on the worker all registrations are at rest that no code has left stranded. -/
theorem Reached.rests (hc : h.Calm) (hs : Reached h (fun s => s.worker.LogsCalmly) s) :
    s.Resting (fun n => h.Stranded n s) none := by
  induction hs with
  | opened hs =>
    obtain rfl := State.open_eq hs
    exact ⟨fun hr _ => by cases hr⟩
  | step hs hst _ ih =>
    refine hst.rests hc hs.reachable.course hs.holds (ih.mono fun n hn => hn.step hst) fun ha hn => ?_
    exact ha ▸ .strands hs.reachable hn

/-! ### The law -/

end EngineBridge
