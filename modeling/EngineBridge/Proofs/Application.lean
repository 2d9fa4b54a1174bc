import EngineBridge.Proofs.Completion
import EngineBridge.Proofs.Live
import EngineBridge.Proofs.Resumption
import EngineBridge.Proofs.Uniform

/-! Two ways to run code against a request that waits: as a continuation, and as the callback of a subrequest of its
    own. They are written apart from each other, and come to the same. -/

namespace EngineBridge
open EngineBridge.Action Registry
variable {δ ω : Type} {h : Host δ ω} {c : Comparison δ ω} {L : Likeness δ ω} {s t u : State δ ω} {k : Nat}
  {r : Registration} {p : Pending δ ω} {token : SubToken} {child : ReqId} {f : Callback δ ω}

/-! ### What comes after the code -/

theorem Logged.calls (hst : Logged s t) : t.shared.journal.calls = s.shared.journal.calls := by
  obtain ⟨es, hes, hlog, -⟩ := hst.entries
  have hnil : es.filterMap Entry.call? = [] := List.filterMap_eq_nil_iff.mpr fun e he => by
    have := hlog e he
    unfold Entry.OfLog at this
    split at this
    · rfl
    · rfl
    · cases this
  unfold Journal.calls
  rw [hes, List.filterMap_append, hnil, List.nil_append]

theorem Host.Calm.calls_ended (hc : h.Calm) (s : State δ ω) (k : Nat) (r : Registration) (rc : Int32) :
    (h.ended s k r rc).shared.journal.calls =
      (some r.serial, .finalize r.id rc, .succeeded) :: s.shared.journal.calls := by
  obtain ⟨x, hx⟩ := hc (.finalize r.id rc) s.shared.world
  have hupshot : Call.upshot (.finalize r.id rc) (h.engine (.finalize r.id rc) s.shared.world).1 = .succeeded := by
    rw [hx]
    rfl
  show (some r.serial, Call.finalize r.id rc, _) :: s.shared.journal.calls = _
  exact congrArg (fun upshot => (some r.serial, Call.finalize r.id rc, upshot) :: s.shared.journal.calls) hupshot

/-- Where root and main request of a subrequest are one, it ends once. -/
theorem Host.Calm.exec_finalizeBoth_of_own (hc : h.Calm) (hk : s.worker.slots[r.id]? = some k)
    (hr : s.worker.requests.get? k = some r) (ho : r.phase ≠ .finalized) (hroot : p.root = r.id)
    (hmain : p.main = none ∨ p.main = some r.id) (rc : Int32) :
    (h.finalizeBoth p rc).exec s = (.ok (), h.ended s k r rc) := by
  have hend : (h.finalizeId p.root rc).exec s = (.ok (), h.ended s k r rc) := by
    unfold Host.finalizeId
    rw [hroot, exec_bind_of_ok (exec_slotOf? r.id), hk]
    dsimp only
    rw [exec_bind_of_ok (exec_registration_of_some hr), if_neg ho, hc.exec_finalize hr ho]
  unfold Host.finalizeBoth
  rw [exec_bind_of_ok hend]
  rcases hmain with hmain | hmain <;> rw [hmain]
  · rfl
  · dsimp only
    rw [if_neg (by simp [hroot])]
    rfl

namespace State.Same

/-- Each of the two logs a line of its own. -/
theorem logged (hst : s.Same c t) {s' t' : State δ ω} (hs : Logged s s') (ht : Logged t t') : s'.Same c t' := by
  have hcalls : t'.shared.journal.calls = s'.shared.journal.calls := by rw [hs.calls, ht.calls, hst.calls]
  obtain ⟨worker, shared⟩ := s'
  obtain ⟨worker', shared'⟩ := t'
  obtain rfl : worker = s.worker := hs.worker
  obtain rfl : worker' = t.worker := ht.worker
  exact { hst with calls := hcalls }

theorem moved (hst : s.Same c t) (k serial : Nat) (phase : Phase) :
    (Registry.moved s k serial phase).Same c (Registry.moved t k serial phase) :=
  { hst with
    requests := congrArg (Arena.modify · k fun r : Registration => { r with phase }) hst.requests
    calls := hst.calls }

theorem ended (hst : s.Same c t) (hc : h.Calm) (k : Nat) (r : Registration) (rc : Int32) :
    (h.ended s k r rc).Same c (h.ended t k r rc) :=
  { hst.moved k r.serial .finalized with
    calls := by rw [hc.calls_ended, hc.calls_ended, hst.calls] }

end State.Same

/-- The result of code that has run against a request is acted on alike in two states that are the same, as that of a
    continuation in the one and as that of the callback of a subrequest of the request in the other. -/
theorem State.Same.applied (hst : s.Same c t) (hc : h.Calm) (hls : s.worker.LogsCalmly) (hlt : t.worker.LogsCalmly)
    (hk : s.worker.slots[r.id]? = some k) (hr : s.worker.requests.get? k = some r) (hphase : r.phase = .resumed)
    (hroot : p.root = r.id) (hmain : p.main = none ∨ p.main = some r.id) (result : Except String Outcome) :
    ∃ s' t', (h.apply k result).exec s = (.ok (), s') ∧ (h.settle p k true result).exec t = (.ok (), t') ∧
      s'.Same c t' ∧ s'.worker.live = s.worker.live ∧ t'.worker.live = t.worker.live := by
  have ho : r.phase ≠ .finalized := hphase ▸ by decide
  have hkt : t.worker.slots[r.id]? = some k := hst.slots ▸ hk
  have hrt : t.worker.requests.get? k = some r := hst.requests ▸ hr
  have finalized : ∀ rc, ∃ s' t', (h.finalize k rc).exec s = (.ok (), s') ∧
      (h.finalizeBoth p rc).exec t = (.ok (), t') ∧ s'.Same c t' ∧ s'.worker.live = s.worker.live ∧
      t'.worker.live = t.worker.live := fun rc =>
    ⟨_, _, hc.exec_finalize hr ho rc, hc.exec_finalizeBoth_of_own hkt hrt ho hroot hmain rc, hst.ended hc k r rc, rfl,
      rfl⟩
  match result with
  | .ok .async =>
    refine ⟨_, _, ?_, ?_, hst.moved k r.serial .suspended, rfl, rfl⟩
    · unfold Host.apply
      dsimp only
      rw [exec_bind_of_ok (exec_registration_of_some hr), if_pos ho, exec_setPhase hr]
    · unfold Host.settle
      dsimp only
      rw [exec_bind_of_ok (exec_registration_of_some hrt), hphase]
      exact exec_setPhase hrt
  | .ok .ok => exact finalized _
  | .ok (.status code) => exact finalized _
  | .error message =>
    obtain ⟨s', hs', -⟩ := hc.exec_log hls (.handlerFailed message) (some r.id)
    obtain ⟨t', ht', -⟩ := hc.exec_log hlt (.callbackFailed message) (some p.caller)
    have hlogs : Logged s s' := (Logged.log (h := h) _ _).exec hs'
    have hlogt : Logged t t' := (Logged.log (h := h) _ _).exec ht'
    have hks' : s'.worker.requests.get? k = some r := hlogs.worker ▸ hr
    refine ⟨_, _, ?_, ?_, (hst.logged hlogs hlogt).ended hc k r 500, ?_, ?_⟩
    · unfold Host.apply
      dsimp only
      rw [exec_bind_of_ok (exec_registration_of_some hr), exec_bind_of_ok hs', hc.exec_finalize hks' ho]
    · unfold Host.settle
      dsimp only
      rw [exec_bind_of_ok ht']
      exact hc.exec_finalizeBoth_of_own (hlogt.worker ▸ hkt) (hlogt.worker ▸ hrt) ho hroot hmain 500
    · show s'.worker.live = _
      rw [hlogs.worker]
    · show t'.worker.live = _
      rw [hlogt.worker]

/-- So it is with what the code has come to, where a fault may have no text: then neither way goes on. -/
theorem State.Same.explained (hst : s.Same c t) (hc : h.Calm) (hls : s.worker.LogsCalmly) (hlt : t.worker.LogsCalmly)
    (hk : s.worker.slots[r.id]? = some k) (hr : s.worker.requests.get? k = some r) (hphase : r.phase = .resumed)
    (hroot : p.root = r.id) (hmain : p.main = none ∨ p.main = some r.id) (x : Except String (Except Fault Outcome)) :
    ∃ s' t', (h.explain x >>= h.apply k).exec s = ((h.explained x).map fun _ => (), s') ∧
      (h.explain x >>= h.settle p k true).exec t = ((h.explained x).map fun _ => (), t') ∧
      s'.Same c t' ∧ s'.worker.live = s.worker.live ∧ t'.worker.live = t.worker.live := by
  cases hx : h.explained x with
  | ok result =>
    obtain ⟨s', t', happly, hsettle, hrest⟩ := hst.applied hc hls hlt hk hr hphase hroot hmain result
    exact ⟨s', t', (Host.exec_explain_bind_of_ok hx).trans happly, (Host.exec_explain_bind_of_ok hx).trans hsettle,
      hrest⟩
  | error stop => exact ⟨s, t, Host.exec_explain_bind_of_error hx, Host.exec_explain_bind_of_error hx, hst, rfl, rfl⟩

/-! ### What comes before the code -/

/-- The comparison of a run that keeps a subrequest with one that acts on its completion, from a state on. -/
def Likeness.since (L : Likeness δ ω) (s : State δ ω) (token : SubToken) (child : ReqId) : Comparison δ ω :=
  { L with since := s.worker.nextSerial, gone := token.serial, child }

/-- The code begins to run in states that are alike. -/
theorem Counted.alike (hs : Counted none s) (k : Nat) (child : ReqId) (hq : ∃ items, s.shared.queue.Holds items)
    (hblind : s.worker.LogsBlindly L) (hp : s.worker.subrequests.get? token.slot = some p)
    (hserial : p.serial = token.serial) (hphase : r.phase = .suspended) (ticket : Nat) :
    (Host.resuming s ⟨k, r.serial, r.id⟩ ticket).Alike (L.since s token child)
      (Host.calling (Host.arrived s token child) p k r) := by
  have hwaited : Deeds.waited (Host.arrived s token child) k r =
      Registry.moved (Host.arrived s token child) k r.serial .resumed := if_pos hphase
  unfold Host.calling
  rw [hwaited]
  exact {
    data := L.data_refl _
    requests := rfl
    slots := rfl
    nextSerial := rfl
    records := {
      kept := fun {slot q} hq hne => by
        have hslot : slot ≠ token.slot := by
          rintro rfl
          rw [show s.worker.subrequests.get? token.slot = some q from hq] at hp
          cases hp
          exact hne hserial
        exact ⟨slot, q, (Arena.get?_remove _ _ _).trans ((if_neg hslot).trans hq), .refl q, .inl rfl⟩
      only := fun {slot q} hq =>
        ⟨slot, q, (Arena.get?_of_remove hq).2, (hs.complete hp hserial).not_kept List.mem_cons_self hq, .refl q⟩ }
    targets := fun {req} hne => (ReqMap.get?_erase _ _ _).trans (if_neg (Ne.symm hne))
    calls := rfl
    world := L.world_refl _
    gone := lt_of_eq_of_lt hserial.symm (hs.kept hp)
    since := Nat.le_refl _
    live := rfl
    id := rfl
    filter := rfl
    logger := rfl
    blind := hblind
    nextTicket := rfl
    failed := rfl
    queue := hq.elim fun items hitems => ⟨items, items, hitems, hitems, rfl, rfl⟩
    size := rfl
    offloads := fun _ => rfl }

theorem Answers.held {α : Type} {x y : Except Stop α × State δ ω} (hxy : Answers c Eq x y) :
    held x.1 = held y.1 ∧ x.2.Alike c y.2 := by
  cases hxy with
  | ok heq hst => exact ⟨heq ▸ rfl, hst⟩
  | error hst => exact ⟨rfl, hst⟩

/-- Code is run against a request in states that are alike, and what it has come to is acted on alike. -/
theorem State.Alike.concluded (hst : s.Alike c t) (hc : h.Calm) (hb : h.Blind c.toLikeness)
    (hf : f.Alike c.toLikeness f) (hl : s.worker.LogsCalmly) (hk : s.worker.slots[r.id]? = some k)
    (hr : s.worker.requests.get? k = some r) (hphase : r.phase = .resumed) (hroot : p.root = r.id)
    (hmain : p.main = none ∨ p.main = some r.id) :
    ∃ out s' t', out = (h.explained (Action.held ((h.runCallback k f).exec s).1)).map (fun _ => ()) ∧
      h.applied s k f = (out, s') ∧
      (h.explain (Action.held ((h.runCallback k f).exec t).1) >>= h.settle p k true).exec
        ((h.runCallback k f).exec t).2 = (out, t') ∧
      s'.Same c t' ∧ s'.worker.live = t'.worker.live := by
  obtain ⟨hresult, hend⟩ := (Uniform.runCallback (k := k) hb hf hst).held
  -- The code leaves the request where it is.
  have hserved : Served (some k) s ((h.runCallback k f).exec s).2 := (Served.runCallback f).exec rfl
  obtain ⟨r', hr', hcourse⟩ := hserved.get? hr
  obtain ⟨hid, -, hphase', -⟩ := Registration.course_inj hcourse
  have hk' : ((h.runCallback k f).exec s).2.worker.slots[r'.id]? = some k := by
    rw [hserved.slots, hid]
    exact hk
  have hls := hl.congr hserved.logger
  obtain ⟨s', t', happly, hsettle, hsame, hslive, htlive⟩ := hend.toSame.explained hc hls (hls.congr hend.logger) hk'
    hr' (hphase'.trans hphase) (hroot.trans hid.symm) (hmain.imp_right fun hm => hm.trans (congrArg some hid.symm))
    (Action.held _)
  refine ⟨_, s', t', rfl, happly, ?_, hsame, by rw [hslive, htlive, hend.live]⟩
  rw [← hresult]
  exact hsettle

/-! ### The law -/

/-- Code that is run against a request which waits comes to the same as a continuation and as the callback of a
    subrequest of that request, where neither the engine nor the logger panics and none of them makes anything of
    the slots in tokens, whatever its result is. Both ways come to their end, or both panic because the text of the
    fault cannot be made that the code has returned. They leave the same requests, which are in the same phases and have
    the same flags and data, the same data of the worker, the same targets and subrequests but for the completed one,
    and the same calls of the engine, other than to log lines. Only the subrequests that the code itself issues may
    have got other slots. -/
theorem Reachable.application_law (hs : Reachable h s) (hc : h.Calm) (hl : s.worker.LogsCalmly) (hb : h.Blind L)
    (hlb : s.worker.LogsBlindly L) (hk : s.worker.slots[r.id]? = some k) (hr : s.worker.requests.get? k = some r)
    (hphase : r.phase = .suspended) (hp : s.worker.subrequests.get? token.slot = some p)
    (hserial : p.serial = token.serial) (hroot : p.root = r.id) (hmain : p.main = none ∨ p.main = some r.id)
    {completion : Completion} (hdone : p.done completion = f) (hf : f.Alike L f) (ticket : Nat) :
    ∃ out t u child, p.child = some child ∧
      (h.resume ⟨k, r.serial, r.id⟩ ticket f).exec s = (out, t) ∧
      (h.subrequestDone token completion).exec s = (out, u) ∧
      t.Same (L.since s token child) u ∧ u.worker.live + 1 = t.worker.live ∧
      (∀ message, h.Stumbles (h.runCallback k f) (Host.resuming s ⟨k, r.serial, r.id⟩ ticket) message →
        out = .error (.panic message)) ∧
      ((∀ message, ¬h.Stumbles (h.runCallback k f) (Host.resuming s ⟨k, r.serial, r.id⟩ ticket) message) →
        out = .ok ()) := by
  have ho : r.phase ≠ .finalized := hphase ▸ by decide
  have hcounted := hs.counted fun _ _ _ _ => hc _ _
  obtain ⟨child, hchild⟩ := Option.isSome_iff_exists.mp (hs.childed hc hp)
  obtain ⟨items, hitems, -⟩ := hs.accounted.each
  have hcaller : p.caller = r.id := by
    unfold Pending.caller
    rcases hmain with hmain | hmain <;> rw [hmain]
    · exact hroot
    · rfl
  have hstart := hcounted.alike k child ⟨items, hitems⟩ hlb hp hserial hphase ticket
  obtain ⟨out, t, u, hout, happly, hsettle, hsame, hlive⟩ := hstart.concluded (r := { r with phase := .resumed }) hc hb
    hf hl hk (get?_moved_self hr) rfl hroot hmain
  have hcomplete : (h.complete p completion).exec (Host.arrived s token child) = (out, u) := by
    unfold Host.complete
    rw [hcaller]
    refine (exec_bind_of_ok (exec_openSlot?_of_open (s := Host.arrived s token child) hk hr ho)).trans ?_
    refine (Host.exec_callBack_eq (s := Host.arrived s token child) hr ho p completion).trans ?_
    unfold Host.calledBack
    rw [hdone, decide_eq_true hphase]
    exact hsettle
  refine ⟨out, t, Host.uncounted u, child, hchild, (Host.exec_resume_of_some hr rfl (.inr hphase)).trans happly, ?_,
    { hsame with }, ?_, fun message hs => ?_, fun hs => ?_⟩
  · rw [Host.exec_subrequestDone_of_child hp hserial hchild, hcomplete]
  · -- The subrequest has counted as live until then.
    have harrived : Turns h (some p) ([p.ticket], Host.completed s token) [p.ticket] (Host.arrived s token child) :=
      .single (.untargeted child)
    have hturns := (Turns.complete harrived completion fun hk => hs.course.occupied hk).exec hcomplete
    have hcount : u.worker.live = u.serials.length + 1 :=
      (Turns.counted (fun _ _ _ _ => hc _ _) (hcounted.complete hp hserial) hturns).live
    show u.worker.live - 1 + 1 = t.worker.live
    rw [hlive]
    omega
  · rw [hout, Host.stumbles_iff.mp hs]
    rfl
  · obtain ⟨result, hx⟩ := Host.exists_explained hs
    rw [hout, hx]
    rfl

/-! ### A subrequest in the slot of another one -/

/-- A host over an engine that gives each child that it makes a new name. -/
def Host.naming (handler : Callback δ UInt64) : Host δ UInt64 :=
  { prompt ⟨0⟩ handler with
    engine := fun
      | .subrequest _ _ _, n => (.ok (.ok ⟨n⟩), n + 1)
      | c, n => Engine.prompt ⟨0⟩ c n }

/-- Code that issues a subrequest and keeps its token with the data. -/
def Callback.keeping : Callback (List SubToken) ω :=
  .sendRequest ⟨⟨.get, "", none, [], none⟩, none, none⟩ (fun _ => .finish (.ok .ok)) fun
    | .ok token => .data (token :: ·) fun _ => .finish (.ok .async)
    | .error _ => .finish (.ok .ok)

/-- Tokens of the same subrequests. -/
def Likeness.tokens : Likeness (List SubToken) ω where
  data d d' := d'.map SubToken.serial = d.map SubToken.serial
  world := Eq
  data_refl _ := rfl
  world_refl _ := rfl

theorem Callback.Alike.keeping : (Callback.keeping (ω := ω)).Alike .tokens .keeping :=
  .sendRequest _ (fun _ => .finish _) (fun _ => .finish _) fun hserial =>
    .data (fun hd => congrArg₂ List.cons hserial.symm hd) fun _ => .finish _

theorem Host.Blind.naming (handler : Callback (List SubToken) UInt64) : (Host.naming handler).Blind .tokens where
  call _ hw := by
    cases hw
    exact ⟨rfl, rfl⟩
  runPosted _ _ _ hw := by
    cases hw
    exact ⟨rfl, rfl⟩
  subrequest _ _ _ _ _ _ _ hw := by
    cases hw
    exact ⟨rfl, rfl⟩
  waker hw := hw
  spawn _ _ _ hw := ⟨rfl, hw⟩

/-- The state after a handler has issued a subrequest and left its request open. -/
def State.issuing : State (List SubToken) UInt64 :=
  (((Host.naming (.waiting fun _ => .keeping)).contentPhase ⟨1⟩).exec ⟨.new {} [], .new .array {} 100⟩).2

theorem Reachable.issuing : Reachable (Host.naming (.waiting fun _ => .keeping)) State.issuing :=
  have hs : State.open .array {} [] 100 = .ok (⟨.new {} [], .new .array {} 100⟩ : State (List SubToken) UInt64) := rfl
  (Reachable.opened hs).step (.hook (.contentPhase ⟨1⟩))

theorem State.done_issuing (completion : Completion) :
    (issuing.worker.subrequests.get? 0).map (fun p => p.done completion) = some .keeping := rfl

/-- The subrequest that the code issues gets a slot of its own in the one run, and that of the completed one in the
    other. -/
theorem application_law_when_slot_reused :
    let h : Host (List SubToken) UInt64 := .naming (.waiting fun _ => .keeping)
    ∃ s t u, Reachable h s ∧ (h.resume ⟨0, 1, ⟨1⟩⟩ 7 .keeping).exec s = (.ok (), t) ∧
      (h.subrequestDone ⟨0, 2⟩ ⟨⟨100⟩, 0, 200, []⟩).exec s = (.ok (), u) ∧ t.worker.data = [⟨1, 3⟩] ∧
      u.worker.data = [⟨0, 3⟩] ∧ u.worker.requests = t.worker.requests ∧
      u.shared.journal.calls = t.shared.journal.calls := by
  intro h
  let token : SubToken := ⟨0, 2⟩
  let completion : Completion := ⟨⟨100⟩, 0, 200, []⟩
  let r : Registration := { id := ⟨1⟩, serial := 1, phase := .suspended, location := some 1 }
  obtain ⟨s, hs, hlogger, hk, hr, hmap, hdone, hdata, hdata'⟩ : ∃ s, Reachable h s ∧ s.worker.logger.isNone ∧
      s.worker.slots[r.id]? = some 0 ∧ s.worker.requests.get? 0 = some r ∧
      (s.worker.subrequests.get? 0).map (fun p => (p.serial, p.root, p.main)) = some (2, ⟨1⟩, none) ∧
      (s.worker.subrequests.get? 0).map (fun p => p.done completion) = some .keeping ∧
      ((h.resume ⟨0, 1, ⟨1⟩⟩ 7 .keeping).exec s).2.worker.data = [⟨1, 3⟩] ∧
      ((h.subrequestDone token completion).exec s).2.worker.data = [⟨0, 3⟩] :=
    ⟨.issuing, .issuing, by decide +kernel, by decide +kernel, by decide +kernel, by decide +kernel,
      State.done_issuing completion, by decide +kernel, by decide +kernel⟩
  have hc : h.Calm := by
    intro c w
    cases c <;> exact ⟨_, rfl⟩
  have hl : s.worker.LogsCalmly := .of_isNone hlogger
  have hlb : s.worker.LogsBlindly .tokens := by
    intro logger heq
    rw [heq] at hlogger
    cases hlogger
  obtain ⟨p, hp, hfields⟩ := Option.map_eq_some_iff.mp hmap
  simp only [Prod.mk.injEq] at hfields
  obtain ⟨hserial, hroot, hmain⟩ := hfields
  have hp' : s.worker.subrequests.get? token.slot = some p := hp
  rw [hp] at hdone
  have hd : h.Displays := fun f => ⟨f.message, rfl⟩
  obtain ⟨out, t, u, child, -, ht, hu, hsame, -, -, hok⟩ := Reachable.application_law hs hc hl (.naming _) hlb hk hr rfl
    hp' hserial hroot (.inl hmain) (Option.some.inj hdone) .keeping 7
  obtain rfl := hok fun _ => hd.not_stumbles
  have ht' : (h.resume ⟨0, 1, ⟨1⟩⟩ 7 .keeping).exec s = (.ok (), t) := ht
  rw [ht'] at hdata
  rw [hu] at hdata'
  exact ⟨s, t, u, hs, ht', hu, hdata, hdata', hsame.requests, hsame.calls⟩

end EngineBridge
