import EngineBridge.Proofs.Answering

/-! What is done for a request stays within a part of the worker, made of names of requests and of the slots that
    their registrations are in. It changes nothing outside of that part and depends on nothing there, so it comes to
    the same wherever that part is the same. This takes an engine that keeps requests apart. -/

namespace EngineBridge
open EngineBridge.Action Registry

/-! ### Calls about a request -/

/-- The call about a request that an entry tells of: for which registration it was made and how it has ended. -/
def Entry.about? (req : ReqId) : Entry → Option (Option Nat × Call × Upshot)
  | .called serial c u => if c.req? = some req then some (serial, c, u) else none
  | _ => none

/-- The calls of the engine about a request, the latest first. -/
def Journal.callsAbout (j : Journal) (req : ReqId) : List (Option Nat × Call × Upshot) := j.filterMap (Entry.about? req)

theorem Journal.callsAbout_cons (e : Entry) (j : Journal) (req : ReqId) :
    callsAbout (e :: j) req = (e.about? req).toList ++ j.callsAbout req := by
  unfold callsAbout
  rw [List.filterMap_cons]
  cases e.about? req <;> rfl

variable {δ ω σ : Type}

section
variable (view : ω → ReqId → σ)

/-- An engine keeps requests apart: a world offers it a view of each request. What it answers to a call about one of
    them, and its view of that one afterwards, depend on its view of that one alone, and its views of the others
    stay as they are. Nothing is said of calls that issue subrequests. Logging changes no view. -/
structure Host.Separate (h : Host δ ω) : Prop where
  call : ∀ {c : Call} {req w w'}, c.req? = some req → c.branches = false → view w req = view w' req →
    (h.engine c w).1 = (h.engine c w').1 ∧ view (h.engine c w).2 req = view (h.engine c w').2 req
  others : ∀ {c : Call} {req req'} (w), c.req? = some req → c.branches = false → req' ≠ req →
    view (h.engine c w).2 req' = view w req'
  log : ∀ level line w w', (h.engine (.log level line) w).1 = (h.engine (.log level line) w').1
  logged : ∀ level line w, view (h.engine (.log level line) w).2 = view w

/-- The logger, if one is set, takes the engine's place for lines: it makes nothing of the world either, and changes
    no view of a request. -/
def Worker.LogsApart (w : Worker δ ω) : Prop :=
  ∀ logger, w.logger = some logger → ∀ line world world',
    (logger line world).1 = (logger line world').1 ∧ view (logger line world).2 = view world

/-! ### Parts -/

/-- Some slots of registrations, some names of requests, and some slots of records of subrequests. -/
structure Part where
  slots : Nat → Prop
  ids : ReqId → Prop
  records : Nat → Prop

/-- The names of a part lead to its slots, and the slots hold registrations under these names. -/
structure Part.Fits (P : Part) (s : State δ ω) : Prop where
  slots : ∀ {req : ReqId} {k : Nat}, P.ids req → s.worker.slots[req]? = some k → P.slots k
  ids : ∀ {k r}, P.slots k → s.worker.requests.get? k = some r → P.ids r.id
  logger : s.worker.LogsApart view

/-- Two states are the same in a part of them, and log alike. -/
structure State.Agree (P : Part) (s t : State δ ω) : Prop where
  id : t.worker.id = s.worker.id
  filter : t.worker.filter = s.worker.filter
  logger : t.worker.logger = s.worker.logger
  slots : ∀ {req}, P.ids req → t.worker.slots[req]? = s.worker.slots[req]?
  requests : ∀ {k}, P.slots k → t.worker.requests.get? k = s.worker.requests.get? k
  records : ∀ {i}, P.records i → t.worker.subrequests.get? i = s.worker.subrequests.get? i
  views : ∀ {req}, P.ids req → view t.shared.world req = view s.shared.world req
  calls : ∀ {req}, P.ids req → t.shared.journal.callsAbout req = s.shared.journal.callsAbout req

/-- From one state to another, only registrations in a part have changed, without changing their names, and the
    engine has been called about requests in it only. -/
structure State.Within (P : Part) (s t : State δ ω) : Prop where
  worker : t.worker = { s.worker with requests := t.worker.requests }
  shared : t.shared = { s.shared with world := t.shared.world, journal := t.shared.journal }
  ids : ∀ k, (t.worker.requests.get? k).map Registration.id = (s.worker.requests.get? k).map Registration.id
  requests : ∀ {k}, ¬P.slots k → t.worker.requests.get? k = s.worker.requests.get? k
  views : ∀ {req}, ¬P.ids req → view t.shared.world req = view s.shared.world req
  calls : ∀ {req}, ¬P.ids req → t.shared.journal.callsAbout req = s.shared.journal.callsAbout req

/-- An action stays within a part: started in two states that agree there, it comes to the same answer and leaves
    states that agree there, and nothing else has changed. -/
def Action.Confined {α : Type} (P : Part) (a : Action δ ω α) : Prop :=
  ∀ s, P.Fits view s → s.Within view P (a.exec s).2 ∧
    ∀ t, P.Fits view t → s.Agree view P t → (a.exec t).1 = (a.exec s).1 ∧ (a.exec s).2.Agree view P (a.exec t).2

end

variable {view : ω → ReqId → σ} {h : Host δ ω} {P Q : Part} {s t u : State δ ω} {α β : Type} {k : Nat}

namespace State

theorem Within.refl (s : State δ ω) : s.Within view P s :=
  ⟨.refl _, .refl _, fun _ => .refl _, fun _ => .refl _, fun _ => .refl _, fun _ => .refl _⟩

/-- Changes of what is shared that come of calls and lines. -/
theorem Within.of_shared {sh : Shared δ ω} (hsh : sh = { s.shared with world := sh.world, journal := sh.journal })
    (hviews : ∀ {req}, ¬P.ids req → view sh.world req = view s.shared.world req)
    (hcalls : ∀ {req}, ¬P.ids req → sh.journal.callsAbout req = s.shared.journal.callsAbout req) :
    s.Within view P { s with shared := sh } :=
  ⟨.refl _, hsh, fun _ => .refl _, fun _ => .refl _, hviews, hcalls⟩

theorem Within.trans (hst : s.Within view P t) (htu : t.Within view P u) : s.Within view P u where
  worker := htu.worker.trans (by rw [hst.worker])
  shared := htu.shared.trans (by rw [hst.shared])
  ids k := (htu.ids k).trans (hst.ids k)
  requests hk := (htu.requests hk).trans (hst.requests hk)
  views hreq := (htu.views hreq).trans (hst.views hreq)
  calls hreq := (htu.calls hreq).trans (hst.calls hreq)

/-- No slot is filled or emptied. -/
theorem Within.get? (hst : s.Within view P t) {r : Registration} (hr : s.worker.requests.get? k = some r) :
    ∃ r', t.worker.requests.get? k = some r' ∧ r'.id = r.id := by
  have hid := hst.ids k
  rw [hr] at hid
  exact Option.map_eq_some_iff.mp hid

theorem Within.get?_before (hst : s.Within view P t) {r : Registration} (hr : t.worker.requests.get? k = some r) :
    ∃ r', s.worker.requests.get? k = some r' ∧ r'.id = r.id := by
  have hid := hst.ids k
  rw [hr] at hid
  exact Option.map_eq_some_iff.mp hid.symm

end State

/-- What is done within one part lets another one fit. -/
theorem Part.Fits.of_within (hs : P.Fits view s) (hst : s.Within view Q t) : P.Fits view t where
  slots hreq hk := hs.slots hreq (by rwa [hst.worker] at hk)
  ids hk hr := by
    obtain ⟨r', hr', hrr'⟩ := hst.get?_before hr
    exact hrr' ▸ hs.ids hk hr'
  logger := by
    rw [hst.worker]
    exact hs.logger

/-! ### Actions within a part -/

namespace Action.Confined

theorem pure (x : α) : (pure x : Action δ ω α).Confined view P := fun _ _ => ⟨.refl _, fun _ _ hst => ⟨rfl, hst⟩⟩

theorem raise (message : String) : (raise message : Action δ ω α).Confined view P :=
  fun _ _ => ⟨.refl _, fun _ _ hst => ⟨rfl, hst⟩⟩

theorem bind {a : Action δ ω α} {f : α → Action δ ω β} (ha : a.Confined view P) (hf : ∀ x, (f x).Confined view P) :
    (a >>= f).Confined view P := by
  intro s hs
  obtain ⟨hsu, hrun⟩ := ha s hs
  rw [exec_bind]
  rcases hr : a.exec s with ⟨e | x, u⟩ <;> rw [hr] at hsu hrun
  · refine ⟨hsu, fun t ht hst => ?_⟩
    obtain ⟨hx, huv⟩ := hrun t ht hst
    rw [exec_bind_of_error (show a.exec t = (.error e, (a.exec t).2) from Prod.ext hx rfl)]
    exact ⟨rfl, huv⟩
  · -- both states go on with the same answer, in states in which the part still fits
    obtain ⟨huw, hrun'⟩ := hf x u (hs.of_within hsu)
    refine ⟨hsu.trans huw, fun t ht hst => ?_⟩
    obtain ⟨hx, huv⟩ := hrun t ht hst
    rw [exec_bind_of_ok (show a.exec t = (.ok x, (a.exec t).2) from Prod.ext hx rfl)]
    exact hrun' _ (ht.of_within (ha t ht).1) huv

theorem tryCatch {a : Action δ ω α} {f : Stop → Action δ ω α} (ha : a.Confined view P)
    (hf : ∀ e, (f e).Confined view P) : (tryCatch a f).Confined view P := by
  intro s hs
  obtain ⟨hsu, hrun⟩ := ha s hs
  rw [exec_tryCatch]
  rcases hr : a.exec s with ⟨e | x, u⟩ <;> rw [hr] at hsu hrun
  · obtain ⟨huw, hrun'⟩ := hf e u (hs.of_within hsu)
    refine ⟨hsu.trans huw, fun t ht hst => ?_⟩
    obtain ⟨hx, huv⟩ := hrun t ht hst
    rw [exec_tryCatch, show a.exec t = (.error e, (a.exec t).2) from Prod.ext hx rfl]
    exact hrun' _ (ht.of_within (ha t ht).1) huv
  · refine ⟨hsu, fun t ht hst => ?_⟩
    obtain ⟨hx, huv⟩ := hrun t ht hst
    rw [exec_tryCatch, show a.exec t = (.ok x, (a.exec t).2) from Prod.ext hx rfl]
    exact ⟨rfl, huv⟩

theorem hold {a : Action δ ω α} (ha : a.Confined view P) : a.hold.Confined view P := by
  refine (ha.bind fun _ => pure _).tryCatch fun e => ?_
  cases e with
  | panic message => exact pure _
  | overrun => exact fun _ _ => ⟨.refl _, fun _ _ hst => ⟨rfl, hst⟩⟩

theorem guarded {a : Action δ ω (Except Fault α)} (ha : a.Confined view P) : (h.guarded a).Confined view P := by
  refine ha.hold.bind fun x s _ => ?_
  rw [h.exec_explain]
  refine ⟨.refl _, fun t _ hst => ?_⟩
  rw [h.exec_explain]
  exact ⟨rfl, hst⟩

/-- What comes next depends on the worker only as far as the part goes. -/
theorem worker_bind {f : Worker δ ω → Action δ ω α} (hf : ∀ s, P.Fits view s → (f s.worker).Confined view P)
    (heq : ∀ {s t}, P.Fits view s → s.Agree view P t → f t.worker = f s.worker) : (worker >>= f).Confined view P := by
  intro s hs
  obtain ⟨hsu, hrun⟩ := hf s hs s hs
  rw [exec_bind_of_ok exec_worker]
  refine ⟨hsu, fun t ht hst => ?_⟩
  rw [exec_bind_of_ok exec_worker, heq hs hst]
  exact hrun t ht hst

theorem record {e : Entry} (he : ∀ req, e.about? req = none) : (record e : Action δ ω Unit).Confined view P := by
  have calls : ∀ (s : State δ ω) req, (s.shared.record e).journal.callsAbout req = s.shared.journal.callsAbout req := by
    intro s req
    show Journal.callsAbout (e :: s.shared.journal) req = _
    rw [Journal.callsAbout_cons, he]
    rfl
  refine fun s hs => ⟨.of_shared rfl (fun _ => rfl) fun _ => calls s _, fun t ht hst => ⟨rfl, ?_⟩⟩
  exact { hst with calls := fun hreq => by rw [exec_record, exec_record, calls, calls, hst.calls hreq] }

/-! ### Registrations of the part -/

theorem registration_bind (hk : P.slots k) {f : Registration → Action δ ω α}
    (hf : ∀ r, P.ids r.id → (f r).Confined view P) : (registration k >>= f).Confined view P := by
  intro s hs
  cases hr : s.worker.requests.get? k with
  | none =>
    rw [exec_bind_of_error (exec_registration_of_none hr)]
    refine ⟨.refl _, fun t ht hst => ?_⟩
    rw [exec_bind_of_error (exec_registration_of_none ((hst.requests hk).trans hr))]
    exact ⟨rfl, hst⟩
  | some r =>
    obtain ⟨hsu, hrun⟩ := hf r (hs.ids hk hr) s hs
    rw [exec_bind_of_ok (exec_registration_of_some hr)]
    refine ⟨hsu, fun t ht hst => ?_⟩
    rw [exec_bind_of_ok (exec_registration_of_some ((hst.requests hk).trans hr))]
    exact hrun t ht hst

theorem modifyRegistration (hk : P.slots k) {f : Registration → Registration} (hf : ∀ r, (f r).id = r.id) :
    (modifyRegistration k f : Action δ ω Unit).Confined view P := by
  intro s hs
  have get? : ∀ (s : State δ ω) k', (changed s k f).worker.requests.get? k' =
      if k' = k then (s.worker.requests.get? k').map f else s.worker.requests.get? k' :=
    fun s k' => Arena.get?_modify _ _ _ _
  rw [exec_modifyRegistration]
  refine ⟨⟨rfl, rfl, Arena.map_get?_modify hf _ _, fun {k'} hk' => ?_, fun _ => rfl, fun _ => rfl⟩, fun t ht hst => ?_⟩
  · rw [get?, if_neg]
    rintro rfl
    exact hk' hk
  · refine ⟨rfl, { hst with requests := fun {k'} hk' => ?_ }⟩
    rw [exec_modifyRegistration, get?, get?, hst.requests hk']

theorem slotOf?_bind {req : ReqId} (hreq : P.ids req) {f : Option Nat → Action δ ω α}
    (hnone : (f none).Confined view P) (hsome : ∀ k, P.slots k → (f (some k)).Confined view P) :
    (slotOf? req >>= f).Confined view P := by
  intro s hs
  have hf : (f s.worker.slots[req]?).Confined view P := by
    cases hk : s.worker.slots[req]? with
    | none => exact hnone
    | some k => exact hsome k (hs.slots hreq hk)
  obtain ⟨hsu, hrun⟩ := hf s hs
  rw [exec_bind_of_ok (exec_slotOf? req)]
  refine ⟨hsu, fun t ht hst => ?_⟩
  rw [exec_bind_of_ok (exec_slotOf? req), hst.slots hreq]
  exact hrun t ht hst

theorem setPhase (hk : P.slots k) (phase : Phase) : (setPhase k phase : Action δ ω Unit).Confined view P :=
  registration_bind hk fun _ _ =>
    (modifyRegistration hk (f := fun r => { r with phase }) fun _ => rfl).bind fun _ => record fun _ => rfl

/-! ### The engine and the log -/

theorem call (hh : h.Separate view) {serial : Option Nat} {c : Call} {req : ReqId} (hreq : P.ids req)
    (hc : c.req? = some req) (hb : c.branches = false) : (h.call serial c).Confined view P := by
  have calls : ∀ (s : State δ ω) req', (h.asked serial c s).shared.journal.callsAbout req' =
      ((Entry.called serial c (c.upshot (h.engine c s.shared.world).1)).about? req').toList ++
        s.shared.journal.callsAbout req' := fun s => Journal.callsAbout_cons _ _
  intro s hs
  rw [h.exec_call]
  refine ⟨.of_shared rfl (fun hreq' => ?_) fun {req'} hreq' => ?_, fun t ht hst => ?_⟩
  · exact hh.others _ hc hb fun heq => hreq' (heq ▸ hreq)
  · have hne : c.req? ≠ some req' := fun heq => hreq' (Option.some.inj (hc.symm.trans heq) ▸ hreq)
    exact (calls s req').trans (by rw [Entry.about?, if_neg hne]; rfl)
  · -- the views of this request agree, so the engine answers alike; all others keep the views that they had
    obtain ⟨hreply, hview⟩ := hh.call hc hb (hst.views hreq)
    rw [h.exec_call, hreply]
    refine ⟨rfl, { hst with views := fun {req'} hreq' => ?_, calls := fun hreq' => ?_ }⟩
    · by_cases heq : req' = req
      · rw [heq]
        exact hview
      · exact (hh.others _ hc hb heq).trans ((hst.views hreq').trans (hh.others _ hc hb heq).symm)
    · rw [calls, calls, hreply, hst.calls hreq']

theorem callLog (hh : h.Separate view) (level : Log.Level) (line : String) :
    (h.call none (.log level line)).Confined view P := by
  have views : ∀ s : State δ ω, view (h.asked none (.log level line) s).shared.world = view s.shared.world :=
    fun s => hh.logged _ _ _
  have calls : ∀ (s : State δ ω) req, (h.asked none (.log level line) s).shared.journal.callsAbout req =
      s.shared.journal.callsAbout req := fun s => Journal.callsAbout_cons _ _
  intro s hs
  rw [h.exec_call]
  refine ⟨.of_shared rfl (fun _ => congrFun (views s) _) fun _ => calls s _, fun t ht hst => ?_⟩
  rw [h.exec_call, hh.log level line _ s.shared.world]
  exact ⟨rfl, { hst with
    views := fun hreq => by rw [views, views, hst.views hreq]
    calls := fun hreq => by rw [calls, calls, hst.calls hreq] }⟩

theorem callLogger {logger : Logger ω} {line : Log.Record} (hl : ∀ world world',
      (logger line world).1 = (logger line world').1 ∧ view (logger line world).2 = view world) :
    (Host.callLogger logger line : Action δ ω Unit).Confined view P := by
  have views : ∀ world, view (logger line world).2 = view world := fun world => (hl world world).2
  refine bind ?_ fun x => ?_
  · intro s hs
    rw [exec_shared]
    refine ⟨.of_shared rfl (fun _ => congrFun (views _) _) fun _ => rfl, fun t ht hst => ?_⟩
    rw [exec_shared]
    refine ⟨congrArg Except.ok (hl _ _).1, { hst with views := fun hreq => ?_ }⟩
    rw [views, views, hst.views hreq]
  · split
    · exact pure _
    · exact raise _

theorem log (hh : h.Separate view) (notice : Log.Notice) (req : Option ReqId) : (h.log notice req).Confined view P := by
  refine worker_bind (fun s hs => ?_) fun hs hst => ?_
  · split
    · refine (record fun _ => rfl).bind fun _ => ?_
      split
      · next logger hlogger => exact callLogger (hs.logger logger hlogger _)
      · exact callLog hh _ _
    · exact pure _
  · dsimp only
    rw [hst.filter, hst.id, hst.logger]

/-! ### Code that uses its own request alone -/

theorem answering (hh : h.Separate view) (hk : P.slots k) :
    h.Answering k (fun r => P.ids r.id) fun a => a.Confined view P where
  pure := pure
  bind := bind
  registration := registration_bind hk
  keep hf := modifyRegistration hk fun r => (Registration.course_inj (hf r)).1
  call hr hc hb := call hh hr hc hb
  bodyInFile := log hh _
  application _ _ := log hh _

end Action.Confined

/-- The requests that the completion of a subrequest involves. -/
def Pending.involved (p : Pending δ ω) : List ReqId := p.root :: p.main.toList

namespace Pending
variable (p : Pending δ ω)

theorem root_mem_involved : p.root ∈ p.involved := List.mem_cons_self

theorem mem_involved_of_main {p : Pending δ ω} {main : ReqId} (hmain : p.main = some main) : main ∈ p.involved :=
  List.mem_cons_of_mem _ (Option.mem_toList.mpr hmain)

theorem caller_mem_involved : p.caller ∈ p.involved := by
  unfold caller
  cases hmain : p.main with
  | none => exact p.root_mem_involved
  | some main => exact mem_involved_of_main hmain

end Pending

/-- Code that does nothing but to use its own request. -/
inductive Callback.Plain : Callback δ ω → Prop
  | finish (result : Except Fault Outcome) : Plain (.finish result)
  | panic (message : String) : Plain (.panic message)
  | call (c : RequestCall) {next : c.Result → Callback δ ω} : (∀ x, Plain (next x)) → Plain (.call c next)

namespace Action.Confined

theorem runCallback (hh : h.Separate view) (hk : P.slots k) {code : Callback δ ω} (hcode : code.Plain) :
    (h.runCallback k code).Confined view P := by
  induction hcode with
  | finish result => exact pure _
  | panic message => exact raise _
  | call c _ ih => exact ((answering hh hk).answer c).bind ih

/-! ### Ends of requests -/

theorem finalize (hh : h.Separate view) (hk : P.slots k) (rc : Int32) : (h.finalize k rc).Confined view P := by
  refine registration_bind hk fun r hr => ?_
  split
  · exact raise _
  · exact (setPhase hk _).bind fun _ => call hh hr rfl rfl

theorem finalizeId (hh : h.Separate view) {req : ReqId} (hreq : P.ids req) (rc : Int32) :
    (h.finalizeId req rc).Confined view P := by
  refine slotOf?_bind hreq (log hh _ _) fun k hk => registration_bind hk fun r _ => ?_
  split
  · exact log hh _ _
  · exact finalize hh hk rc

theorem apply (hh : h.Separate view) (hk : P.slots k) (result : Except String Outcome) :
    (h.apply k result).Confined view P := by
  unfold Host.apply
  split
  · refine registration_bind hk fun r _ => ?_
    split
    · exact setPhase hk _
    · exact pure _
  · exact finalize hh hk _
  · exact registration_bind hk fun r _ => (log hh _ _).bind fun _ => finalize hh hk _

/-! ### Continuations -/

theorem runAs (hh : h.Separate view) (hk : P.slots k) (role : Role) {code : Callback δ ω} (hcode : code.Plain) :
    (h.runAs k role code).Confined view P :=
  registration_bind hk fun _ _ => (record fun _ => rfl).bind fun _ =>
    (runCallback hh hk hcode).guarded.bind fun result => apply hh hk result

theorem resume (hh : h.Separate view) {target : Resumer} (hk : P.slots target.slot) (ticket : Nat)
    {code : Callback δ ω} (hcode : code.Plain) : (h.resume target ticket code).Confined view P := by
  refine worker_bind (fun s _ => ?_) fun _ hst => ?_
  · split
    · exact (record fun _ => rfl).bind fun _ => log hh _ _
    · next r _ =>
      split
      · exact (setPhase hk _).bind fun _ => (record fun _ => rfl).bind fun _ => runAs hh hk _ hcode
      · exact (setPhase hk _).bind fun _ => (record fun _ => rfl).bind fun _ => runAs hh hk _ hcode
      · exact (record fun _ => rfl).bind fun _ => log hh _ _
      · exact (record fun _ => rfl).bind fun _ => log hh _ _
      · exact (record fun _ => rfl).bind fun _ => log hh _ _
  · rw [hst.requests hk]

/-! ### Completions -/

theorem openSlot?_bind {req : ReqId} (hreq : P.ids req) {f : Option Nat → Action δ ω α}
    (hnone : (f none).Confined view P) (hsome : ∀ k, P.slots k → (f (some k)).Confined view P) :
    (openSlot? req >>= f).Confined view P := by
  unfold openSlot?
  rw [bind_assoc]
  refine slotOf?_bind hreq ?_ fun k hk => ?_
  · rw [pure_bind]
    exact hnone
  · rw [bind_assoc]
    refine registration_bind hk fun r _ => ?_
    rw [pure_bind]
    split
    · exact hnone
    · exact hsome k hk

section
variable {p : Pending δ ω} (hh : h.Separate view) (hp : ∀ req ∈ p.involved, P.ids req)
include hh hp

theorem finalizeBoth (rc : Int32) : (h.finalizeBoth p rc).Confined view P := by
  refine (finalizeId hh (hp _ p.root_mem_involved) rc).bind fun _ => ?_
  split
  · next main hmain =>
    split
    · exact finalizeId hh (hp _ (Pending.mem_involved_of_main hmain)) rc
    · exact pure _
  · exact pure _

theorem abandon : (h.abandon p).Confined view P := by
  have close : ∀ open? : Option Nat, (if p.root ≠ p.caller ∧ open?.isSome then h.finalizeId p.root 500
      else Pure.pure ()).Confined view P := by
    intro open?
    split
    · exact finalizeId hh (hp _ p.root_mem_involved) 500
    · exact pure _
  refine (record fun _ => rfl).bind fun _ => (log hh _ _).bind fun _ => ?_
  exact openSlot?_bind (hp _ p.root_mem_involved) (close none) fun k _ => close (some k)

theorem settle (hk : P.slots k) (resumed : Bool) (result : Except String Outcome) :
    (h.settle p k resumed result).Confined view P := by
  unfold Host.settle
  split
  · refine registration_bind hk fun r _ => ?_
    split
    · exact setPhase hk _
    · exact pure _
  · exact finalizeBoth hh hp _
  · exact (log hh _ _).bind fun _ => finalizeBoth hh hp _

theorem callBack (hk : P.slots k) {completion : Completion} (hcode : (p.done completion).Plain) :
    (h.callBack p k completion).Confined view P := by
  have wait : (Host.resumeWaiting k : Action δ ω Bool).Confined view P := by
    refine registration_bind hk fun r _ => ?_
    split
    · exact (setPhase hk _).bind fun _ => pure _
    · exact pure _
  refine wait.bind fun resumed => (record fun _ => rfl).bind fun _ => registration_bind hk fun r _ => ?_
  exact (record fun _ => rfl).bind fun _ =>
    (runCallback hh hk hcode).guarded.bind fun result => settle hh hp hk resumed result

theorem complete {completion : Completion} (hcode : (p.done completion).Plain) :
    (h.complete p completion).Confined view P :=
  openSlot?_bind (hp _ p.caller_mem_involved) (abandon hh hp) fun _ hk => callBack hh hp hk hcode

end
end Action.Confined
end EngineBridge
