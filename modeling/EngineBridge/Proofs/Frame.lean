import EngineBridge.Proofs.Ownership
import EngineBridge.Proofs.Standing

/-! Requests do not disturb one another. Code runs against one registration, and what it does and what its result
    brings about leave all others as they are; only the completion of a subrequest may end one other registration,
    that of its root. No request comes or goes meanwhile, and the engine is told of no other one. -/

namespace EngineBridge
open EngineBridge.Action Registry
variable {δ ω : Type} {h : Host δ ω} {s t u : State δ ω} {k : Nat} {r : Registration} {own root : Option Nat}
  {p : Pending δ ω}

/-- A call that writes is made for the request that code runs against, and an end is told of that one or of the
    root. -/
def Entry.Concerns (own root : Option ReqId) (e : Entry) : Prop :=
  ∀ n c v, e = .called n c v → (c.writes → c.req? = own) ∧ ∀ req rc, c = .finalize req rc → own = some req ∨ root = some req

/-- Neither does an entry tell of a call that writes, nor of an end. -/
def Entry.Aside (e : Entry) : Prop := ∀ n c v, e = .called n c v → ¬c.writes ∧ ∀ req rc, c ≠ .finalize req rc

theorem Entry.Aside.concerns {own root : Option ReqId} {e : Entry} (he : e.Aside) : e.Concerns own root := by
  intro n c v hcall
  obtain ⟨hwrites, hends⟩ := he n c v hcall
  exact ⟨fun hc => absurd hc hwrites, fun req rc hc => absurd hc (hends req rc)⟩

theorem Call.not_writes_of_asks {c : Call} (hasks : c.asks) : ¬c.writes := by
  cases c <;> simp [asks, writes] at hasks ⊢

/-- What is done on behalf of none tells of no call that writes and of no end; what is done on behalf of a
    registration tells of none for another one. -/
theorem Entry.Minor.concerns {who : Option Registration} {root : Option ReqId} {e : Entry} (he : e.Minor who) :
    e.Concerns (who.map Registration.id) root := by
  rintro n c v rfl
  have hends : ∀ req rc, c = .finalize req rc → ¬c.asks ∧ ¬c.writes := by
    rintro req rc rfl
    exact ⟨nofun, nofun⟩
  cases n with
  | none =>
    have hasks : c.asks := he
    exact ⟨fun hwrites => absurd hwrites (Call.not_writes_of_asks hasks),
      fun req rc hc => absurd hasks (hends req rc hc).1⟩
  | some n =>
    obtain ⟨r, rfl, -, hreq, hcan⟩ := he
    refine ⟨fun _ => by rw [hreq, Option.map_some], fun req rc hc => ?_⟩
    obtain ⟨hasks, hwrites⟩ := hends req rc hc
    exact (hcan.elim hasks fun hc => hwrites hc.1).elim

/-- Who is registered. -/
def Registration.name (r : Registration) : ReqId × Nat := (r.id, r.serial)

/-- From one state to another every registration is as it was, but the one in a slot of its own, and that of the
    root, which may have ended. -/
structure State.Undisturbed (own root : Option Nat) (s t : State δ ω) : Prop where
  slots : t.worker.slots = s.worker.slots
  names : ∀ k, (t.worker.requests.get? k).map Registration.name = (s.worker.requests.get? k).map Registration.name
  others : ∀ k, own ≠ some k → root ≠ some k → t.worker.requests.get? k = s.worker.requests.get? k
  ends : ∀ k r, own ≠ some k → root = some k → s.worker.requests.get? k = some r →
    t.worker.requests.get? k = some r ∨ t.worker.requests.get? k = some { r with phase := .finalized }
  entries : ∃ es, t.shared.journal = es ++ s.shared.journal ∧
    ∀ e ∈ es, e.Concerns ((s.held own).map Registration.id) ((s.held root).map Registration.id)

/-- The slot of the registration against which the callback of a subrequest runs, if that is open. -/
def State.callerSlot (s : State δ ω) (p : Pending δ ω) : Option Nat :=
  if s.worker.isOpen p.caller then s.worker.slots[p.caller]? else none

namespace State.Undisturbed

/-! ### Changes of the state -/

/-- Changes that leave the requests as they are. -/
theorem of_eq (hslots : t.worker.slots = s.worker.slots) (hrequests : t.worker.requests = s.worker.requests)
    (es : Journal) (hj : t.shared.journal = es ++ s.shared.journal) (hes : ∀ e ∈ es, e.Aside) :
    s.Undisturbed own root t where
  slots := hslots
  names k := by rw [hrequests]
  others k _ _ := by rw [hrequests]
  ends k r _ _ hr := .inl (hrequests ▸ hr)
  entries := ⟨es, hj, fun e he => (hes e he).concerns⟩

theorem refl (s : State δ ω) : s.Undisturbed own root s := of_eq rfl rfl [] rfl (by simp)

theorem held (hst : s.Undisturbed own root t) (slot : Option Nat) :
    (t.held slot).map Registration.id = (s.held slot).map Registration.id := by
  cases slot with
  | none => rfl
  | some k =>
    have hnames := congrArg (Option.map Prod.fst) (hst.names k)
    rw [Option.map_map, Option.map_map] at hnames
    exact hnames

theorem trans (hst : s.Undisturbed own root t) (htu : t.Undisturbed own root u) : s.Undisturbed own root u where
  slots := htu.slots.trans hst.slots
  names k := (htu.names k).trans (hst.names k)
  others k hown hroot := (htu.others k hown hroot).trans (hst.others k hown hroot)
  ends k r hown hroot hr := by
    rcases hst.ends k r hown hroot hr with hr' | hr'
    · exact htu.ends k r hown hroot hr'
    · exact .inr ((htu.ends k _ hown hroot hr').elim id id)
  entries := by
    obtain ⟨es, hes, hconcerns⟩ := hst.entries
    obtain ⟨later, hlater, hconcerns'⟩ := htu.entries
    refine ⟨later ++ es, by rw [hlater, hes, List.append_assoc], fun e he => ?_⟩
    rcases List.mem_append.mp he with he | he
    · rw [← hst.held own, ← hst.held root]
      exact hconcerns' e he
    · exact hconcerns e he

/-- What is done on behalf of the registration against which code runs. -/
theorem served (hst : Served own s t) : s.Undisturbed own root t where
  slots := hst.slots
  names k := by
    have hcourse := congrArg (Option.map fun c : ReqId × Nat × Phase × Option UInt64 × Bool => (c.1, c.2.1)) (hst.course k)
    rw [Option.map_map, Option.map_map] at hcourse
    exact hcourse
  others k hown _ := hst.others k hown
  ends k r hown _ hr := .inl ((hst.others k hown).trans hr)
  entries := by
    obtain ⟨es, hes, hminor⟩ := hst.entries
    exact ⟨es, hes, fun e he => (hminor e he).concerns⟩

theorem spoken (hst : Spoken none s t) : s.Undisturbed own root t := served hst.of_none.served

theorem names_moved (s : State δ ω) (k n : Nat) (p : Phase) (k' : Nat) :
    ((moved s k n p).worker.requests.get? k').map Registration.name =
      (s.worker.requests.get? k').map Registration.name := by
  have hname : ∀ r : Registration, ({ r with phase := p } : Registration).name = r.name := fun _ => rfl
  exact Arena.map_get?_modify hname _ _ _

/-- The registration against which code runs comes to another point of its course. -/
theorem moved (s : State δ ω) (k n : Nat) (p : Phase) : s.Undisturbed (some k) root (Registry.moved s k n p) where
  slots := rfl
  names := names_moved s k n p
  others k' hown _ := by
    rw [get?_moved, if_neg fun heq => hown (congrArg some heq.symm)]
  ends k' r hown _ hr := by
    rw [get?_moved, if_neg fun heq => hown (congrArg some heq.symm)]
    exact .inl hr
  entries := ⟨[.moved n p], rfl, by simp [Entry.Concerns]⟩

/-- The registration against which code runs, or the root, ends. -/
theorem ended (rc : Int32) (hr : s.worker.requests.get? k = some r) (hk : own = some k ∨ root = some k) :
    s.Undisturbed own root (h.ended s k r rc) where
  slots := rfl
  names := names_moved s k r.serial .finalized
  others k' hown hroot := by
    have hne : k' ≠ k := by
      rintro rfl
      exact hk.elim hown hroot
    show (Registry.moved s k r.serial .finalized).worker.requests.get? k' = _
    rw [get?_moved, if_neg hne]
  ends k' r' hown hroot hr' := by
    show (Registry.moved s k r.serial .finalized).worker.requests.get? k' = _ ∨
      (Registry.moved s k r.serial .finalized).worker.requests.get? k' = _
    rw [get?_moved, hr']
    split
    · exact .inr rfl
    · exact .inl rfl
  entries := by
    refine ⟨[.called _ (.finalize _ _) _, .moved _ _], rfl, fun e he => ?_⟩
    simp only [List.mem_cons, List.not_mem_nil, or_false] at he
    rcases he with rfl | rfl
    · rintro n c v hcall
      cases hcall
      refine ⟨fun hwrites => absurd hwrites Bool.false_ne_true, ?_⟩
      intro req rc hcall
      cases hcall
      have hheld : ((s.held (some k)).map Registration.id) = some r.id := congrArg (Option.map Registration.id) hr
      rcases hk with rfl | rfl
      · exact .inl hheld
      · exact .inr hheld
    · intro n c v hcall
      cases hcall

/-! ### Acting on a result -/

theorem log (hst : s.Undisturbed own root t) (notice : Log.Notice) (req : Option ReqId) :
    (h.log notice req).Leaves (s.Undisturbed own root) t :=
  (Spoken.log notice req).mono fun _ (htu : Spoken none t _) => hst.trans (spoken htu)

theorem finalize (hst : s.Undisturbed (some k) root t) (rc : Int32) :
    (h.finalize k rc).Leaves (s.Undisturbed (some k) root) t := by
  refine leaves_registration hst fun r hr => ?_
  split
  · exact .raise hst
  · exact .bind_of_ok (exec_setPhase hr) (h.leaves_call.mpr (hst.trans (ended rc hr (.inl rfl))))

theorem apply (hst : s.Undisturbed (some k) root t) (result : Except String Outcome) :
    (h.apply k result).Leaves (s.Undisturbed (some k) root) t := by
  unfold Host.apply
  split
  · refine leaves_registration hst fun r hr => ?_
    split
    · exact .of_exec (exec_setPhase hr) (hst.trans (moved t k r.serial .suspended))
    · exact .pure hst
  · exact finalize hst _
  · exact leaves_registration hst fun r _ => (log hst _ _).bind fun _ _ _ hu => finalize hu _

theorem noted (hst : s.Undisturbed own root t) {e : Entry} (he : e.Aside) :
    s.Undisturbed own root (Host.noted t e) :=
  hst.trans (of_eq rfl rfl [e] rfl (by simpa using he))

theorem runCallback (hst : s.Undisturbed (some k) root t) (code : Callback δ ω) :
    (h.runCallback k code).Leaves (s.Undisturbed (some k) root) t :=
  (Services.runCallback (X := []) code .refl).mono fun _ htu => hst.trans (served (Services.served htu))

theorem runAs (hst : s.Undisturbed (some k) root t) (role : Role) (code : Callback δ ω) :
    (h.runAs k role code).Leaves (s.Undisturbed (some k) root) t := by
  refine leaves_registration hst fun r _ => .bind_of_ok (exec_record _) ?_
  have hstarted : s.Undisturbed (some k) root (Host.noted t (.started role r.serial)) := noted hst fun _ _ _ => nofun
  exact (h.leaves_guarded (runCallback hstarted code)).bind fun result _ _ hu => apply hu result

theorem dispatch (hst : s.Undisturbed (some k) root t) : (h.dispatch k).Leaves (s.Undisturbed (some k) root) t := by
  have hset : (setPhase k .handling : Action δ ω Unit).Leaves (s.Undisturbed (some k) root) t :=
    leaves_registration hst fun r _ =>
      .bind_of_ok (exec_modifyRegistration _) (.of_exec (exec_record _) (hst.trans (moved t k r.serial .handling)))
  refine hset.bind fun _ u _ hu => leaves_registration hu fun r _ => ?_
  split
  · exact runAs hu _ _
  · exact apply hu _

/-! ### What the engine and the queue start -/

theorem startBody (hst : s.Undisturbed (some k) root t) (req : ReqId) :
    (h.startBody k req).Leaves (s.Undisturbed (some k) root) t := by
  refine leaves_registration hst fun r _ => ?_
  have hasked : s.Undisturbed (some k) root (h.asked (some r.serial) (.readBody req) t) :=
    hst.trans (of_eq rfl rfl [.called _ _ _] rfl (by simp [Entry.Aside, Call.writes]))
  refine (h.leaves_call.mpr hasked).bind fun reply u _ hu => ?_
  split
  · exact (dispatch hu).bind fun _ _ _ hv => .pure hv
  · exact .pure hu
  · have hset : (setPhase k .finalized : Action δ ω Unit).Leaves (s.Undisturbed (some k) root) u :=
      leaves_registration hu fun r _ =>
        .bind_of_ok (exec_modifyRegistration _) (.of_exec (exec_record _) (hu.trans (moved u k r.serial .finalized)))
    refine hset.bind fun _ _ _ hv => ?_
    split
    · exact .pure hv
    · exact (log hv _ _).bind fun _ _ _ hw => .pure hw

theorem bodyReady (s : State δ ω) (req : ReqId) :
    (h.bodyReady req).Leaves (s.Undisturbed s.worker.slots[req]? none) s := by
  refine .bind_of_ok (exec_slotOf? req) ?_
  cases s.worker.slots[req]? with
  | none => exact log (refl s) _ _
  | some k =>
    refine leaves_registration (refl s) fun r _ => ?_
    split
    · exact dispatch (refl s)
    · exact .raise (refl s)

theorem resume_of_resumable {target : Resumer} (hr : s.worker.requests.get? target.slot = some r)
    (hserial : r.serial = target.serial) (hp : r.Resumable) (x : Nat) (code : Callback δ ω) :
    (h.resume target x code).Leaves (s.Undisturbed (some target.slot) none) s := by
  have hresuming : s.Undisturbed (some target.slot) none (Host.resuming s target x) := by
    have hran : s.Undisturbed (some target.slot) none
        (Host.noted (Registry.moved s target.slot target.serial .resumed) (.ran x)) := noted (moved _ _ _ _) fun _ _ _ => nofun
    exact noted hran fun _ _ _ => nofun
  unfold Leaves
  rw [Host.exec_resume_of_some hr hserial hp]
  exact Host.leaves_explain_bind (fun result _ => apply (runCallback hresuming code) result) fun _ _ =>
    runCallback hresuming code

theorem resume_of_rejected {target : Resumer} (hn : ∀ r, s.worker.requests.get? target.slot = some r →
      r.serial = target.serial → ¬r.Resumable) (x : Nat) (code : Callback δ ω) :
    (h.resume target x code).Leaves (s.Undisturbed none none) s := by
  obtain ⟨notice, req, hexec⟩ := Host.exec_resume_of_rejected (h := h) (fun r hr hserial =>
    not_or.mp (hn r hr hserial)) x code
  have hdestroyed : s.Undisturbed none none (Host.noted s (.destroyed x)) := noted (refl s) fun _ _ _ => nofun
  unfold Leaves
  rw [hexec]
  exact log hdestroyed notice req

/-! ### Completions -/

/-- What ends with a completion is the registration of the caller, or that of the root. -/
theorem settles : Settles h p (s.Undisturbed s.worker.slots[p.caller]? s.worker.slots[p.root]?) where
  log notice req ht := log ht notice req
  ended rc hreq hslot hr _ ht := by
    rw [ht.slots] at hslot
    refine ht.trans (ended rc hr ?_)
    rcases hreq with rfl | rfl
    · exact .inr hslot
    · exact .inl hslot

/-- Where the caller is gone or over, only the registration of the root ends. -/
theorem settles_of_closed (hclosed : s.worker.isOpen p.caller = false) :
    Settles h p (s.Undisturbed none s.worker.slots[p.root]?) where
  log notice req ht := log ht notice req
  ended {t req k r} rc hreq hslot hr ho ht := by
    rw [ht.slots] at hslot
    refine ht.trans (ended rc hr (.inr ?_))
    rcases hreq with rfl | rfl
    · exact hslot
    · -- if the caller's registration were another one than the root's, it would still be as closed as it was
      by_contra hroot
      rw [ht.others k nofun hroot] at hr
      rw [isOpen_iff.mpr ⟨k, r, hslot, hr, ho⟩] at hclosed
      cases hclosed

theorem callBack (hk : s.worker.slots[p.caller]? = some k) (completion : Completion) :
    (h.callBack p k completion).Leaves (s.Undisturbed (some k) s.worker.slots[p.root]?) s := by
  have hresumed : (Host.resumeWaiting k : Action δ ω Bool).Leaves (s.Undisturbed (some k) s.worker.slots[p.root]?) s := by
    refine leaves_registration (refl s) fun r hr => ?_
    split
    · exact .bind_of_ok (exec_setPhase hr) (.pure (moved s k r.serial .resumed))
    · exact .pure (refl s)
  refine hresumed.bind fun resumed t _ ht => .bind_of_ok (exec_record _) ?_
  have hran : s.Undisturbed (some k) s.worker.slots[p.root]? (Host.noted t (.ran p.ticket)) := noted ht fun _ _ _ => nofun
  refine leaves_registration hran fun r _ => .bind_of_ok (exec_record _) ?_
  have hstarted : s.Undisturbed (some k) s.worker.slots[p.root]?
    (Host.noted (Host.noted t (.ran p.ticket)) (.started (.callback p.ticket) r.serial)) := noted hran fun _ _ _ => nofun
  refine (h.leaves_guarded (runCallback hstarted (p.done completion))).bind fun result u _ hu => ?_
  have hsettles : Settles h p (s.Undisturbed (some k) s.worker.slots[p.root]?) := hk ▸ settles
  exact hsettles.settle hu (fun {r} _ _ => hu.trans (moved u k r.serial .suspended)) resumed result

theorem complete (hn : ∀ {k}, s.worker.slots[p.caller]? = some k → ∃ r, s.worker.requests.get? k = some r)
    (completion : Completion) : (h.complete p completion).Leaves (s.Undisturbed (s.callerSlot p) s.worker.slots[p.root]?) s := by
  unfold State.callerSlot
  cases hopen : s.worker.isOpen p.caller with
  | false =>
    have hdestroyed : s.Undisturbed none s.worker.slots[p.root]? (Host.noted s (.destroyed p.ticket)) := noted (refl s) fun _ _ _ => nofun
    exact .bind_of_ok (exec_openSlot?_of_not_open hopen fun k hk => hn hk)
      ((settles_of_closed hopen).abandon hdestroyed)
  | true =>
    obtain ⟨k, r, hk, hr, ho⟩ := isOpen_iff.mp hopen
    rw [if_pos rfl, hk]
    exact .bind_of_ok (exec_openSlot?_of_open hk hr ho) (callBack hk completion)

theorem subrequestDone (hs : Course s) {token : SubToken} (hp : s.worker.subrequests.get? token.slot = some p)
    (hserial : p.serial = token.serial) (completion : Completion) :
    (h.subrequestDone token completion).Leaves (s.Undisturbed (s.callerSlot p) s.worker.slots[p.root]?) s := by
  have hcompleted : s.Undisturbed (s.callerSlot p) s.worker.slots[p.root]? (Host.completed s token) :=
    of_eq rfl rfl [.completed token] rfl (by simp [Entry.Aside])
  have hchild : (h.completeChild p completion).Leaves (s.Undisturbed (s.callerSlot p) s.worker.slots[p.root]?)
      (Host.completed s token) := by
    unfold Host.completeChild
    split
    · exact .bind_of_ok (exec_record _) (.raise (noted hcompleted fun _ _ _ => nofun))
    · next child _ =>
      have harrived : s.Undisturbed (s.callerSlot p) s.worker.slots[p.root]? (Host.arrived s token child) :=
        hcompleted.trans (of_eq rfl rfl [] rfl (by simp))
      have hcomplete : (h.complete p completion).Leaves
          ((Host.arrived s token child).Undisturbed (s.callerSlot p) s.worker.slots[p.root]?) (Host.arrived s token child) :=
        complete (s := Host.arrived s token child) (fun hk => hs.occupied hk) completion
      exact .bind_of_ok (exec_modifyWorker _) (hcomplete.mono fun _ => harrived.trans)
  unfold Leaves at hchild ⊢
  rw [Host.exec_subrequestDone_of_live hp hserial]
  exact hchild.trans (of_eq rfl rfl [] rfl (by simp))

end State.Undisturbed

/-! ### Handlers, continuations and callbacks -/

/-- The state in which a request has just been registered that the engine has routed here. -/
def Host.received (h : Host δ ω) (s : State δ ω) (req : ReqId) (location : Option UInt64) : State δ ω :=
  registered (Host.cleared (h.asked none (.location req) s) req) req .received location false

theorem Host.exec_contentPhase_received (hs : Course s) {req : ReqId} {location : Option UInt64}
    (hlocation : (h.engine (.location req) s.shared.world).1 = .ok location)
    (hhandler : (location.bind h.routes.handler?).isSome) :
    ∃ k, (h.received s req location).worker.slots[req]? = some k ∧
      (h.contentPhase req).exec s = (h.startBody k req).exec (h.received s req location) := by
  obtain ⟨code, hcode⟩ := Option.isSome_iff_exists.mp hhandler
  have hasked : Spoken none s (h.asked none (.location req) s) := .asked_none rfl
  obtain ⟨hcleared, -⟩ := get?_cleared (hs.served hasked.served) req 0
  exact ⟨_, (ReqMap.get?_insert _ _ _ _).trans (if_pos rfl), exec_contentPhase_of_some hlocation hcode hcleared⟩

/-- Whatever a handler, a continuation or the callback of a subrequest does, and whatever comes of its result, no
    registration is disturbed but the one that it runs against, and the one of the root where a subrequest has
    completed. A continuation that is rejected disturbs none. -/
theorem Reachable.frame_law (hs : Reachable h s) :
    (∀ {req location}, (h.engine (.location req) s.shared.world).1 = .ok location →
      (location.bind h.routes.handler?).isSome →
      ∃ k, (h.received s req location).worker.slots[req]? = some k ∧
        (h.contentPhase req).exec s = (h.startBody k req).exec (h.received s req location) ∧
        (h.contentPhase req).Leaves ((h.received s req location).Undisturbed (some k) none) s) ∧
    (∀ req, (h.bodyReady req).Leaves (s.Undisturbed s.worker.slots[req]? none) s) ∧
    (∀ {target : Resumer} {r}, s.worker.requests.get? target.slot = some r → r.serial = target.serial → r.Resumable →
      ∀ x code, (h.resume target x code).Leaves (s.Undisturbed (some target.slot) none) s) ∧
    (∀ {target : Resumer}, (∀ r, s.worker.requests.get? target.slot = some r → r.serial = target.serial → ¬r.Resumable) →
      ∀ x code, (h.resume target x code).Leaves (s.Undisturbed none none) s) ∧
    ∀ {token : SubToken} {p}, s.worker.subrequests.get? token.slot = some p → p.serial = token.serial →
      ∀ completion,
        (h.subrequestDone token completion).Leaves (s.Undisturbed (s.callerSlot p) s.worker.slots[p.root]?) s := by
  refine ⟨fun {req location} hlocation hhandler => ?_, State.Undisturbed.bodyReady s,
    State.Undisturbed.resume_of_resumable, State.Undisturbed.resume_of_rejected, State.Undisturbed.subrequestDone hs.course⟩
  obtain ⟨k, hk, hexec⟩ := Host.exec_contentPhase_received hs.course hlocation hhandler
  refine ⟨k, hk, hexec, ?_⟩
  have hbody : (h.startBody k req).Leaves ((h.received s req location).Undisturbed (some k) none)
    (h.received s req location) := .startBody (.refl _) req
  unfold Leaves at hbody ⊢
  rwa [hexec]

/-- The callback of a subrequest of the first of three requests runs against the second one. The third one waits on. -/
theorem frame_law_when_root_ends :
    let h : Host Unit Unit := .prompt ⟨9⟩ (.sendRequest ⟨⟨.get, "", none, [], none⟩, none, some ⟨2⟩⟩
      (fun _ => .finish (.ok .ok)) fun _ => .finish (.ok .async))
    ∃ s t, Reachable h s ∧ ((h.subrequestDone ⟨0, 2⟩ ⟨⟨9⟩, 0, 200, []⟩).exec s).2 = t ∧
      (s.worker.requests.get? 0).map Registration.phase = some .suspended ∧
      (t.worker.requests.get? 0).map Registration.phase = some .finalized ∧
      (s.worker.requests.get? 2).map Registration.phase = some .suspended ∧
      t.worker.requests.get? 2 = s.worker.requests.get? 2 := by
  intro h
  let code : Task Unit Unit := .hook (.contentPhase ⟨1⟩) fun _ => .hook (.contentPhase ⟨2⟩) fun _ =>
    .hook (.contentPhase ⟨3⟩) fun _ => .done
  let s := ((h.run code).exec State.fresh).2
  have hs : Reachable h s := Reachable.fresh.run _
  have hsub : (s.worker.subrequests.get? 0).map (fun p => (p.serial, s.callerSlot p, s.worker.slots[p.root]?)) =
      some (2, some 1, some 0) := by decide +kernel
  obtain ⟨p, hp, hslots⟩ := Option.map_eq_some_iff.mp hsub
  simp only [Prod.mk.injEq] at hslots
  obtain ⟨hserial, hcaller, hroot⟩ := hslots
  obtain ⟨-, -, -, -, hdone⟩ := Reachable.frame_law hs
  have hframe := @hdone ⟨0, 2⟩ p hp hserial ⟨⟨9⟩, 0, 200, []⟩
  rw [hcaller, hroot] at hframe
  exact ⟨s, _, hs, rfl, by decide +kernel, by decide +kernel, by decide +kernel, hframe.others 2 (by decide) (by decide)⟩

end EngineBridge
