import EngineBridge.Proofs.Likeness

/-! Application code against a request is uniform: run in two states that are alike, it comes to the same result and
    leaves states that are alike. Only what it issues may get other slots. -/

namespace EngineBridge
open EngineBridge.Action Registry
variable {δ ω α : Type} {c : Comparison δ ω} {h : Host δ ω} {s t : State δ ω} {k : Nat} {r : Registration}

/-! ### The engine and the log -/

theorem Call.not_posts_of_not_branches {q : Call} (hq : q.branches = false) : q.posts = false := by
  cases q <;> first | rfl | cases hq

namespace Action.Uniform

theorem callLogger {logger : Logger ω} {line : Log.Record}
    (hl : ∀ {w w'}, c.world w w' →
      (logger line w).1 = (logger line w').1 ∧ c.world (logger line w).2 (logger line w').2) :
    (Host.callLogger logger line : Action δ ω Unit).Uniform c := by
  intro s t hst
  obtain ⟨hreply, hworld⟩ := hl hst.world
  unfold Host.callLogger
  rw [exec_bind_of_ok (exec_shared _), exec_bind_of_ok (exec_shared _)]
  dsimp only
  rw [← hreply]
  cases (logger line s.shared.world).1 with
  | ok => exact .ok rfl (hst.inWorld hworld)
  | error message => exact .error (hst.inWorld hworld)

section
variable (hb : h.Blind c.toLikeness)
include hb

theorem call {serial : Option Nat} {q : Call} (hq : q.posts = false) : (h.call serial q).Uniform c := by
  intro s t hst
  obtain ⟨hreply, hworld⟩ := hb.call hq hst.world
  rw [h.exec_call, h.exec_call, ← hreply]
  have hasked : (h.asked serial q s).Alike c (h.asked serial q t) := hst.asked serial q q rfl .rfl (by rw [hreply]) hworld
  cases (h.engine q s.shared.world).1 with
  | error message => exact .error hasked
  | ok x => exact .ok rfl hasked

theorem log (notice : Log.Notice) (req : Option ReqId) : (h.log notice req).Uniform c := by
  intro s t hst
  unfold Host.log
  rw [exec_bind_of_ok exec_worker, exec_bind_of_ok exec_worker, hst.filter, hst.id, hst.logger]
  split
  · rw [exec_bind_of_ok (exec_record _), exec_bind_of_ok (exec_record _)]
    have hnoted := hst.noted (.logged notice req) (.logged notice req) rfl rfl
    cases hlogger : s.worker.logger with
    | none => exact call (q := .log notice.level _) hb rfl hnoted
    | some logger => exact callLogger (hst.blind logger hlogger) hnoted
  · exact .ok rfl hst

/-! ### Answers of the request -/

theorem answering : h.Answering k (fun _ => True) fun a => a.Uniform c where
  pure := pure
  bind := bind
  registration hf := registration.bind fun r => hf r trivial
  keep _ := modifyRegistration _
  call _ _ hq := call hb (Call.not_posts_of_not_branches hq)
  bodyInFile := log hb _
  application _ _ := log hb _

theorem answer (q : RequestCall) : (h.answer k q).Uniform c := (answering hb).answer q

end
end Action.Uniform

/-! ### Closures -/

theorem Queue.Channel.Alike.push {q q' : Queue.Channel α} (hq : q.Alike q') (x y : α) :
    (∃ p p', q.push x = (.ok (), p) ∧ q'.push y = (.ok (), p') ∧ p.Alike p') ∨
      q.push x = (.error x, q) ∧ q'.push y = (.error y, q') := by
  obtain ⟨items, items', hi, hi', hlength, hcapacity⟩ := hq
  rcases Nat.lt_or_ge items.length q.capacity with hlt | hle
  · obtain ⟨p, hpush, hp, hpc⟩ := hi.push_of_lt hlt x
    obtain ⟨p', hpush', hp', hpc'⟩ := hi'.push_of_lt (by omega) y
    exact .inl ⟨p, p', hpush, hpush', _, _, hp, hp', by simp [hlength], by omega⟩
  · exact .inr ⟨hi.push_of_le hle x, hi'.push_of_le (by omega) y⟩

namespace State.Alike

theorem sent (hst : s.Alike c t) (hb : h.Blind c.toLikeness) (p q : Parcel δ ω) :
    (s.shared.send h.waker p).1 = (t.shared.send h.waker q).1 ∧ (h.sent s p).Alike c (h.sent t q) := by
  unfold Host.sent Shared.send Shared.enqueue
  rcases hst.queue.push p q with ⟨queue, queue', hpush, hpush', hqueue⟩ | ⟨hpush, hpush'⟩ <;> rw [hpush, hpush']
  · exact ⟨rfl, { hst with
      queue := hqueue
      world := hb.waker hst.world
      calls := hst.calls }⟩
  · exact ⟨rfl, { hst with
      failed := congrArg (· + 1) hst.failed
      world := hb.waker hst.world
      calls := hst.calls }⟩

theorem offloaded (hst : s.Alike c t) (o o' : Offload δ ω) : (Host.offloaded s o).Alike c (Host.offloaded t o') :=
  { hst with
    size := by
      show (Array.push _ _).size = (Array.push _ _).size
      rw [Array.size_push, Array.size_push, hst.size]
    offloads := fun i => by
      show (Array.push _ _)[i]?.join.isSome = (Array.push _ _)[i]?.join.isSome
      rw [Array.getElem?_push, Array.getElem?_push, hst.size]
      split
      · rfl
      · exact hst.offloads i }

theorem offloadEnded (hst : s.Alike c t) (index : Nat) :
    (Host.offloadEnded s index).Alike c (Host.offloadEnded t index) :=
  { hst with
    size := by
      show (Array.setIfInBounds _ _ _).size = (Array.setIfInBounds _ _ _).size
      rw [Array.size_setIfInBounds, Array.size_setIfInBounds, hst.size]
    offloads := fun i => by
      show (Array.setIfInBounds _ _ _)[i]?.join.isSome = (Array.setIfInBounds _ _ _)[i]?.join.isSome
      rw [Array.getElem?_setIfInBounds, Array.getElem?_setIfInBounds, hst.size]
      split
      · split <;> rfl
      · exact hst.offloads i }

end State.Alike

namespace Action.Uniform
variable (hb : h.Blind c.toLikeness)
include hb

theorem push (work work' : Work δ ω) : (h.push work).Alike c Eq (h.push work') := by
  intro s t hst
  obtain ⟨hsent, halike⟩ := hst.handed.sent hb ⟨s.shared.nextTicket, work⟩ ⟨t.shared.nextTicket, work'⟩
  exact .ok hsent halike

theorem awaitOffload (index : Nat) : (h.awaitOffload index).Uniform c := by
  intro s t hst
  have hsome := hst.offloads index
  unfold Host.awaitOffload
  rw [exec_shared, exec_shared]
  unfold Shared.awaitOffload
  cases ho : s.shared.offloads[index]?.join <;> cases ho' : t.shared.offloads[index]?.join <;> rw [ho, ho'] at hsome
  · exact .ok rfl hst
  · cases hsome
  · cases hsome
  · exact .ok rfl ((hst.offloadEnded index).sent hb _ _).2

end Action.Uniform

/-! ### Subrequests -/

/-- Two answers to a request for a child: both the same error, or both a token of one subrequest. -/
inductive Issuance : Except Error SubToken → Except Error SubToken → Prop
  | ok {token token' : SubToken} : token.serial = token'.serial → Issuance (.ok token) (.ok token')
  | error (e : Error) : Issuance (.error e) (.error e)

theorem Call.upshot_subrequest {req : ReqId} {child : ChildRequest} (token token' : SubToken)
    (reply : Except String (Except EngineError ReqId)) :
    (subrequest req child token').upshot (δ := δ) (ω := ω) reply =
      (subrequest req child token).upshot (δ := δ) (ω := ω) reply := by
  cases reply <;> rfl

namespace State.Alike
variable {p q : Pending δ ω}

/-- Records of a subrequest are kept in the next slots. -/
theorem pended (hst : s.Alike c t) (hpq : p.Alike c.toLikeness q) (hsince : c.since ≤ p.serial) :
    (Host.pended s p).Alike c (Host.pended t q) :=
  { hst with
    records := hst.records.put (Arena.get?_nextSlot _) (Arena.get?_nextSlot _) (Arena.get?_insert _ _)
      (Arena.get?_insert _ _) hpq hsince hst.gone
    live := congrArg (· + 1) hst.live }

/-- The engine is asked for the child of a subrequest whose records are kept in the next slots. -/
theorem askedChild (hst : s.Alike c t) (hb : h.Blind c.toLikeness) (hpq : p.Alike c.toLikeness q)
    (hsince : c.since ≤ p.serial) (serial : Option Nat) (req : ReqId) (child : ChildRequest) :
    (h.engine (.subrequest req child (Host.tokenOf s p)) s.shared.world).1 =
        (h.engine (.subrequest req child (Host.tokenOf t q)) t.shared.world).1 ∧
      (h.asked serial (.subrequest req child (Host.tokenOf s p)) (Host.pended s p)).Alike c
        (h.asked serial (.subrequest req child (Host.tokenOf t q)) (Host.pended t q)) := by
  have hserial : (Host.tokenOf s p).serial = (Host.tokenOf t q).serial := hpq.serial.symm
  obtain ⟨hreply, hworld⟩ := hb.subrequest req child hserial hst.world
  refine ⟨hreply, (hst.pended hpq hsince).asked serial _ _ ?_ ?_ ?_ hworld⟩
  · exact congrArg (fun n => Call.subrequest req child ⟨0, n⟩) hpq.serial
  · constructor <;> rintro ⟨_, _, heq⟩ <;> cases heq
  · exact (Call.upshot_subrequest _ _ _).trans (congrArg _ hreply.symm)

end State.Alike

/-- The child of a subrequest is noted in the records that have just been kept. -/
theorem State.Alike.childSet {p q : Pending δ ω} (hst : s.Alike c t) (hpq : p.Alike c.toLikeness q)
    (hsince : c.since ≤ p.serial) {u v : State δ ω} (huv : u.Alike c v) (hu : u.worker = (Host.pended s p).worker)
    (hv : v.worker = (Host.pended t q).worker) (target : Option Peer) (child : ReqId) :
    (Host.childSet u (Host.tokenOf s p) target child).Alike c (Host.childSet v (Host.tokenOf t q) target child) :=
  have get? : ∀ {s u : State δ ω} {p : Pending δ ω}, u.worker = (Host.pended s p).worker → ∀ slot,
      (Host.childSet u (Host.tokenOf s p) target child).worker.subrequests.get? slot =
        if slot = s.worker.subrequests.nextSlot then some { p with child := some child }
        else s.worker.subrequests.get? slot := by
    intro s u p hu slot
    rw [Host.get?_childSet, hu]
    show (if _ then ((s.worker.subrequests.insert p).get? slot).map _
      else (s.worker.subrequests.insert p).get? slot) = _
    rw [Arena.get?_insert]
    unfold Host.tokenOf
    split <;> rfl
  { huv with
    records := hst.records.put (Arena.get?_nextSlot _) (Arena.get?_nextSlot _) (get? hu) (get? hv)
      { hpq with child := rfl } hsince hst.gone
    targets := fun {req} hne => by
      rw [Host.targets_childSet, Host.targets_childSet, huv.targets hne]
    calls := huv.calls }

/-- The records that have just been kept are removed again. -/
theorem State.Alike.withdrawn {p q : Pending δ ω} (hst : s.Alike c t) {u v : State δ ω} (huv : u.Alike c v)
    (hu : u.worker = (Host.pended s p).worker) (hv : v.worker = (Host.pended t q).worker) (ticket : Nat) :
    (Host.withdrawn u (Host.tokenOf s p).slot ticket).Alike c (Host.withdrawn v (Host.tokenOf t q).slot ticket) :=
  have get? : ∀ {s u : State δ ω} {p : Pending δ ω}, u.worker = (Host.pended s p).worker → ∀ slot,
      (Host.withdrawn u (Host.tokenOf s p).slot ticket).worker.subrequests.get? slot =
        s.worker.subrequests.get? slot := by
    intro s u p hu slot
    show (u.worker.subrequests.remove s.worker.subrequests.nextSlot).get? slot = _
    rw [hu, Arena.get?_remove]
    show (if _ then none else (s.worker.subrequests.insert p).get? slot) = _
    rw [Arena.get?_insert]
    split
    · next heq => rw [heq, Arena.get?_nextSlot]
    · rfl
  { huv with
    records := hst.records.of_get? (get? hu) (get? hv)
    live := congrArg (· - 1) huv.live
    calls := huv.calls }

namespace Action.Uniform
variable (hb : h.Blind c.toLikeness)
include hb

theorem pushAll {ts ts' : List (Task δ ω)} (hlength : ts.length = ts'.length) :
    Action.Alike c Eq (ts.forM fun t => discard (h.push (.task t))) (ts'.forM fun t => discard (h.push (.task t))) := by
  induction ts generalizing ts' with
  | nil =>
    obtain rfl := List.eq_nil_of_length_eq_zero hlength.symm
    exact pure ()
  | cons t ts ih =>
    cases ts' with
    | nil => cases hlength
    | cons t' ts' => exact (push hb _ _).discard.bind fun _ => ih (Nat.succ.inj hlength)

/-- As many tasks are posted, and as many of them are pushed. -/
theorem runPosted : (h.runPosted r).Uniform c := by
  have posted : Action.Alike c (fun ts ts' => ts.length = ts'.length) (h.call r.serial (.runPosted r.id))
      (h.call r.serial (.runPosted r.id)) := by
    intro s t hst
    obtain ⟨hreply, hworld⟩ := hb.runPosted r.id hst.world
    rw [h.exec_call, h.exec_call]
    have hasked := hst.asked (h := h) r.serial (.runPosted r.id) (.runPosted r.id) rfl .rfl
    cases he : (h.engine (.runPosted r.id) s.shared.world).1 with
    | error message =>
      cases he' : (h.engine (.runPosted r.id) t.shared.world).1 with
      | error message' =>
        rw [he, he'] at hreply
        cases hreply
        exact .error (hasked (by rw [he, he']) hworld)
      | ok ts' => rw [he, he'] at hreply; cases hreply
    | ok ts =>
      cases he' : (h.engine (.runPosted r.id) t.shared.world).1 with
      | error message' => rw [he, he'] at hreply; cases hreply
      | ok ts' =>
        rw [he, he'] at hreply
        exact .ok (Except.ok.inj hreply) (hasked (by rw [he, he']; rfl) hworld)
  unfold Host.runPosted
  split
  · exact posted.bind fun hlength => pushAll hb hlength
  · exact pure ()

/-- The records of a subrequest are kept, and the engine is asked for its child. -/
theorem issue {p q : Pending δ ω} (hpq : p.Alike c.toLikeness q) (hsince : c.since ≤ p.serial) (sub : Subrequest)
    (ticket : Nat) :
    Action.Alike c Issuance (Host.addPending p >>= fun slot => h.createChild r sub ticket ⟨slot, p.serial⟩)
      (Host.addPending q >>= fun slot => h.createChild r sub ticket ⟨slot, q.serial⟩) := by
  intro s t hst
  rw [exec_bind_of_ok (Host.exec_addPending s p), exec_bind_of_ok (Host.exec_addPending t q)]
  obtain ⟨hreply, hasked⟩ := hst.askedChild hb hpq hsince (some r.serial) r.id sub.toChildRequest
  show Answers c Issuance ((h.createChild r sub ticket (Host.tokenOf s p)).exec _)
    ((h.createChild r sub ticket (Host.tokenOf t q)).exec _)
  unfold Host.createChild
  cases he : (h.engine (.subrequest r.id sub.toChildRequest (Host.tokenOf s p)) s.shared.world).1 with
  | error message =>
    rw [exec_bind_of_error (h.exec_call_of_error (s := Host.pended s p) he),
      exec_bind_of_error (h.exec_call_of_error (s := Host.pended t q) (hreply.symm.trans he))]
    exact .error hasked
  | ok answer =>
    rw [exec_bind_of_ok (h.exec_call_of_ok (s := Host.pended s p) he),
      exec_bind_of_ok (h.exec_call_of_ok (s := Host.pended t q) (hreply.symm.trans he))]
    cases answer with
    | ok child =>
      have hset := hst.childSet hpq hsince hasked rfl rfl (sub.target.map Peer.ofSocketAddr) child
      exact ((runPosted hb).andThen fun _ => Alike.pure (.ok hpq.serial.symm)) hset
    | error cause =>
      have hgone := hst.withdrawn hasked rfl rfl ticket
      exact ((log hb _ _).andThen fun _ => Alike.pure (.error _)) hgone

theorem sendRequest (sub : Subrequest) {done done' : Completion → Callback δ ω}
    (hdone : ∀ x, (done x).Alike c.toLikeness (done' x)) :
    Action.Alike c Issuance (h.sendRequest k sub done) (h.sendRequest k sub done') := by
  refine registration.andThen fun r => hand.andThen fun ticket => ?_
  split
  · exact (record rfl).andThen fun _ => Alike.pure (.error _)
  · refine freshSerial.bind ?_
    rintro serial _ ⟨rfl, hsince⟩
    refine Alike.andThen (Alike.onPanic (call hb rfl) (record rfl)) fun root => ?_
    let kept (done : Completion → Callback δ ω) : Pending δ ω :=
      { serial, root, main := sub.main, target := sub.target.map Peer.ofSocketAddr, child := none, ticket, done }
    have hpq : (kept done).Alike c.toLikeness (kept done') := ⟨rfl, rfl, rfl, rfl, rfl, rfl, .inr hdone⟩
    exact issue hb hpq hsince sub ticket

/-! ### Application code -/

theorem startThread (req : ReqId) : (h.startThread req).Uniform c := by
  intro s t hst
  obtain ⟨hstarted, hworld⟩ := hb.spawn req hst.world
  rw [h.exec_startThread, h.exec_startThread, hstarted]
  exact .ok rfl (hst.inWorld hworld)

theorem offload (work work' : String → Except String String) (done done' : Except String String → Callback δ ω) :
    Action.Alike c Eq (h.offload k work done) (h.offload k work' done') := by
  refine registration.andThen fun r => hand.andThen fun ticket => ?_
  split
  · exact (record rfl).andThen fun _ => Alike.pure rfl
  · refine (startThread hb _).andThen fun started => ?_
    split
    · exact fun s t hst => .ok rfl (hst.offloaded _ _)
    · exact (record rfl).andThen fun _ => Alike.pure rfl

omit hb in
theorem changeData {change change' : δ → δ} (hc : ∀ {d d'}, c.data d d' → c.data (change d) (change' d')) :
    Action.Alike c c.data (Host.changeData change : Action δ ω δ) (Host.changeData change') :=
  fun _ _ hst => .ok hst.data { hst with data := hc hst.data }

omit hb in
theorem changeWorld {change change' : ω → ω} (hc : ∀ {w w'}, c.world w w' → c.world (change w) (change' w')) :
    Action.Alike c c.world (Host.changeWorld change : Action δ ω ω) (Host.changeWorld change') :=
  fun _ _ hst => .ok hst.world (hst.inWorld (hc hst.world))

/-- Codes that are alike come to the same result, in states that are alike, and leave such states. -/
theorem runCallback {f g : Callback δ ω} (hfg : f.Alike c.toLikeness g) :
    Action.Alike c Eq (h.runCallback k f) (h.runCallback k g) := by
  induction hfg with
  | finish result => exact pure result
  | panic message => exact Alike.raise message
  | call q _ ih => exact (answer hb q).andThen ih
  | data hc _ ih => exact (changeData hc).bind fun hd => ih hd
  | world hc _ ih => exact (changeWorld hc).bind fun hw => ih hw
  | sendRequest sub hdone _ _ _ herror hok =>
    refine (sendRequest hb sub hdone).bind fun hissues => ?_
    cases hissues with
    | ok hserial => exact hok hserial
    | error e => exact herror e
  | offload _ ih => exact (offload hb _ _ _ _).andThen ih
  | push _ ih => exact (push hb _ _).andThen ih
  | failedCount _ ih => exact failedCount.andThen ih
  | awaitOffload index _ ih => exact (awaitOffload hb index).andThen ih

end Action.Uniform
end EngineBridge
