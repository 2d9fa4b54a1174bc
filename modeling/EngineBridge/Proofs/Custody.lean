import EngineBridge.Proofs.Resumption
import EngineBridge.Worker.Closing

/-! The closures from when they are handed over to when nothing is left of a worker and its handles. A
    closure that is not to be run is destroyed at once; what waits when the worker is dropped is destroyed
    with it; and what its handles push after that stays in the queue until the last of them is gone. -/

namespace EngineBridge
open EngineBridge.Action Registry
variable {δ ω : Type} {h : Host δ ω} {X : List Nat} {s t u : State δ ω} {sh : Shared δ ω} {k : Nat}

/-! ### The balance -/

/-- Each closure that has been handed over has been run, or has been destroyed, or is one of those that are
    held, and so they add up. -/
structure Journal.Balance (j : Journal) (held : List Nat) : Prop where
  once : ∀ x, j.count (.handed x) ≤ 1
  each : ∀ x, j.count (.handed x) = j.count (.ran x) + j.count (.destroyed x) + held.count x
  total : j.handedCount = j.ranCount + j.destroyedCount + held.length

namespace Journal

theorem count_given (j : Journal) (x : Nat) : j.given.count x = j.count (.handed x) := by
  induction j with
  | nil => rfl
  | cons e j ih =>
    cases e with
    | handed y =>
      show (y :: given j).count x = _
      rw [List.count_cons, List.count_cons, ih]
      simp
    | _ =>
      show (given j).count x = _
      rw [ih, List.count_cons_of_ne (by simp)]

theorem length_given (j : Journal) : j.given.length = j.handedCount := by
  unfold given handedCount
  rw [List.length_filterMap_eq_countP]
  exact List.countP_congr fun e _ => by cases e <;> simp [Entry.gives?]

theorem length_spent (j : Journal) : j.spent.length = j.ranCount + j.destroyedCount := by
  unfold spent ranCount destroyedCount
  rw [List.length_filterMap_eq_countP]
  induction j with
  | nil => rfl
  | cons e j ih =>
    rw [List.countP_cons, List.countP_cons, List.countP_cons, ih]
    cases e <;> simp [Entry.spends?] <;> omega

theorem Balance.of_perm {j : Journal} {held : List Nat} (hn : j.given.Nodup) (hp : (held ++ j.spent).Perm j.given) :
    j.Balance held where
  once x := by
    rw [← count_given]
    exact List.nodup_iff_count_le_one.mp hn x
  each x := by
    rw [← count_given, ← hp.count_eq, List.count_append, count_spent, Nat.add_comm]
  total := by
    rw [← length_given, ← hp.length_eq, List.length_append, length_spent, Nat.add_comm]

end Journal

/-- The closures that the queue and the offloads hold. -/
def Shared.stored (sh : Shared δ ω) : List Nat :=
  sh.queue.held.map Parcel.ticket ++ (sh.offloads.toList.filterMap id).map Offload.ticket

/-- The closures that the queue, the offloads and the subrequests hold. -/
def State.stored (s : State δ ω) : List Nat :=
  s.shared.stored ++ s.worker.subrequests.values.map Pending.ticket

theorem Accounted.balance (hs : Accounted X s) (hsize : s.shared.queue.capacity < UInt64.size) :
    s.shared.journal.Balance (X ++ s.stored) := by
  obtain ⟨items, hq, hperm⟩ := hs.each
  refine .of_perm hs.nodup ?_
  unfold State.stored Shared.stored
  rwa [hq.held_eq hsize]

theorem Deeds.accounted {a : List Nat × State δ ω} (ha : Accounted a.1 a.2) (hat : Deeds h a X t) :
    Accounted X t :=
  invariant (P := fun b => Accounted b.1 b.2) (fun hb hbc => hbc.accounted hb) ha hat

/-! ### The size of the queue -/

namespace Queue

theorem Ring.capacity_pushWithin {α : Type} (r : Ring α) (value : α) :
    ∀ n pos, (r.pushWithin value n pos).2.capacity = r.capacity
  | 0, _ => rfl
  | n + 1, pos => by
    unfold Ring.pushWithin
    split
    · rfl
    · rfl
    · exact capacity_pushWithin r value n r.tail

theorem Channel.capacity_push {α : Type} (c : Channel α) (value : α) : (c.push value).2.capacity = c.capacity := by
  cases c with
  | ring r => exact r.capacity_pushWithin value _ _
  | array q =>
    show (q.push value).2.capacity = q.capacity
    unfold Bounded.push
    split <;> rfl

theorem Channel.capacity_pop {α : Type} (c : Channel α) : c.pop.2.capacity = c.capacity := by
  cases c with
  | ring r =>
    show r.pop.2.capacity = r.capacity
    unfold Ring.pop
    dsimp only
    split <;> rfl
  | array q => rfl

end Queue

theorem Shared.capacity_send (waker : Waker ω) (sh : Shared δ ω) (p : Parcel δ ω) :
    (sh.send waker p).2.queue.capacity = sh.queue.capacity := by
  rw [← sh.queue.capacity_push p]
  unfold Shared.send Shared.enqueue
  rcases sh.queue.push p with ⟨_ | _, queue⟩ <;> rfl

theorem Deed.capacity {a b : List Nat × State δ ω} (hab : Deed h a b) :
    b.2.shared.queue.capacity = a.2.shared.queue.capacity := by
  cases hab with
  | service hab =>
    cases hab with
    | spoken hst => rw [hst.spoken.shared]
    | sent => exact Shared.capacity_send _ _ _
    | _ => rfl
  | @taken X s p sh htake =>
    obtain ⟨queue, hpop, rfl⟩ := Shared.pop_of_take htake
    have := s.shared.queue.capacity_pop
    rwa [hpop] at this
  | @looked X s sh htake =>
    obtain ⟨queue, hpop, rfl⟩ := Shared.pop_of_take_none htake
    have := s.shared.queue.capacity_pop
    rwa [hpop] at this
  | _ => rfl

theorem Deeds.capacity {a b : List Nat × State δ ω} (hab : Relation.ReflTransGen (Deed h) a b) :
    b.2.shared.queue.capacity = a.2.shared.queue.capacity :=
  invariant (P := fun b => b.2.shared.queue.capacity = a.2.shared.queue.capacity)
    (fun hb hbc => hbc.capacity.trans hb) rfl hab

/-! ### Closures that are destroyed at once -/

theorem Shared.destroyed_of_send {waker : Waker ω} {p : Parcel δ ω} (hp : (sh.send waker p).1 = false) :
    .destroyed p.ticket ∈ (sh.send waker p).2.journal := by
  unfold send at hp ⊢
  split
  · next heq =>
    rw [heq] at hp
    cases hp
  · exact List.mem_cons_self

theorem keeps_destroyed (x : Nat) : Keeps h fun t => .destroyed x ∈ t.shared.journal where
  log {s} notice req hs := by
    have hlog : (h.log notice req).Leaves (Spoken none s) s := .log notice req
    refine hlog.mono fun t hst => ?_
    obtain ⟨es, hes, -⟩ := hst.entries
    rw [hes]
    exact List.mem_append_right es hs
  ended _ _ _ _ hs := List.mem_cons_of_mem _ (List.mem_cons_of_mem _ hs)

namespace Host

theorem destroyed_of_push {work : Work δ ω} (he : (h.push work).exec s = (.ok false, t)) :
    .destroyed s.shared.nextTicket ∈ t.shared.journal := by
  unfold push Shared.push Shared.send at he
  rw [exec_shared] at he
  dsimp only at he
  split at he
  · cases he
  · cases he
    exact List.mem_cons_self

theorem destroyed_of_offload {work : String → Except String String} {done : Except String String → Callback δ ω}
    {e : Error} (he : (h.offload k work done).exec s = (.ok (.error e), t)) :
    .destroyed s.shared.nextTicket ∈ t.shared.journal := by
  obtain ⟨r, _, hr, hrest⟩ := exec_bind_eq_ok he
  obtain ⟨-, rfl⟩ := exec_registration_eq_ok hr
  rw [exec_bind_of_ok (exec_hand _)] at hrest
  dsimp only at hrest
  split at hrest
  · cases hrest
    exact List.mem_cons_self
  · rw [exec_bind_of_ok (h.exec_startThread _ _)] at hrest
    split at hrest
    · cases hrest
    · cases hrest
      exact List.mem_cons_self

/-- An offload whose thread the system refuses to start. -/
theorem exec_offload_of_refused {r : Registration} {cause : String} (hr : s.worker.requests.get? k = some r)
    (ho : r.checkLive = .ok ()) (hspawn : (h.spawn r.id s.shared.world).1 = .error cause)
    (work : String → Except String String) (done : Except String String → Callback δ ω) :
    (h.offload k work done).exec s =
      (.ok (.error (.spawn cause)), noted (h.spawned (handed s) r.id) (.destroyed s.shared.nextTicket)) := by
  have hstart : (h.startThread r.id).exec (handed s) = (.ok (.error cause), h.spawned (handed s) r.id) :=
    (h.exec_startThread (handed s) r.id).trans (congrArg (fun x => (Except.ok x, _)) hspawn)
  unfold offload
  rw [exec_bind_of_ok (exec_registration_of_some hr), exec_bind_of_ok (exec_hand s), ho]
  exact exec_bind_of_ok hstart

/-- A callback whose subrequest the engine refuses. -/
theorem destroyed_of_createChild {r : Registration} {sub : Subrequest} {x : Nat} {token : SubToken} {e : Error}
    (he : (h.createChild r sub x token).exec s = (.ok (.error e), t)) : .destroyed x ∈ t.shared.journal := by
  obtain ⟨reply, u, -, hrest⟩ := exec_bind_eq_ok he
  cases reply with
  | ok child =>
    obtain ⟨_, _, -, hrest⟩ := exec_bind_eq_ok hrest
    obtain ⟨_, _, -, hend⟩ := exec_bind_eq_ok hrest
    cases hend
  | error cause =>
    have hlog := (keeps_destroyed (h := h) x).log (s := withdrawn u token.slot x) (.subrequestNotCreated cause)
      (some r.id) List.mem_cons_self
    obtain ⟨_, v, hv, hend⟩ := exec_bind_eq_ok (a := h.log (.subrequestNotCreated cause) (some r.id)) hrest
    cases hend
    exact hlog.exec hv

theorem destroyed_of_sendRequest {sub : Subrequest} {done : Completion → Callback δ ω} {e : Error}
    (he : (h.sendRequest k sub done).exec s = (.ok (.error e), t)) :
    .destroyed s.shared.nextTicket ∈ t.shared.journal := by
  obtain ⟨r, _, hr, hrest⟩ := exec_bind_eq_ok he
  obtain ⟨-, rfl⟩ := exec_registration_eq_ok hr
  rw [exec_bind_of_ok (exec_hand _)] at hrest
  dsimp only at hrest
  split at hrest
  · cases hrest
    exact List.mem_cons_self
  · rw [exec_bind_of_ok exec_freshSerial] at hrest
    obtain ⟨root, u, -, hcreate⟩ := exec_bind_eq_ok hrest
    rw [exec_bind_of_ok (exec_addPending u _)] at hcreate
    exact destroyed_of_createChild hcreate

/-- A callback whose request's root the engine panics about. -/
theorem destroyed_of_rootless {r : Registration} {message : String} (hr : s.worker.requests.get? k = some r)
    (ho : r.checkLive = .ok ()) (he : (h.engine (.mainOf r.id) s.shared.world).1 = .error message)
    (sub : Subrequest) (done : Completion → Callback δ ω) :
    (h.sendRequest k sub done).Leaves (fun t => .destroyed s.shared.nextTicket ∈ t.shared.journal) s := by
  refine .bind_of_ok (exec_registration_of_some hr) (.bind_of_ok (exec_hand s) ?_)
  rw [ho]
  have hcall : (h.call (some r.serial) (.mainOf r.id)).exec (numbered (handed s)) = (.error (.panic message), _) :=
    h.exec_call_of_error he
  have hroot : ((h.call (some r.serial) (.mainOf r.id)).onPanic (record (.destroyed s.shared.nextTicket))).exec
      (numbered (handed s)) = (.error (.panic message), _) := exec_onPanic_of_panic hcall rfl
  exact .bind_of_ok exec_freshSerial (.of_exec (exec_bind_of_error hroot) List.mem_cons_self)

theorem destroyed_of_rejected {target : Resumer} (hn : ∀ r, s.worker.requests.get? target.slot = some r →
      r.serial = target.serial → r.phase ≠ .handling ∧ r.phase ≠ .suspended) (x : Nat) (code : Callback δ ω) :
    (h.resume target x code).Leaves (fun t => .destroyed x ∈ t.shared.journal) s := by
  obtain ⟨notice, req, hexec⟩ := exec_resume_of_rejected (h := h) hn x code
  have hlog := (keeps_destroyed (h := h) x).log (s := noted s (.destroyed x)) notice req List.mem_cons_self
  unfold Action.Leaves
  rw [hexec]
  exact hlog

/-- A callback whose request is gone or over, or whose subrequest has got no child. -/
theorem destroyed_of_skipped {token : SubToken} {p : Pending δ ω} (hs : Course s)
    (hp : s.worker.subrequests.get? token.slot = some p) (hserial : p.serial = token.serial)
    (hn : s.worker.isOpen p.caller = false ∨ p.child = none) (completion : Completion) :
    (h.subrequestDone token completion).Leaves (fun t => .destroyed p.ticket ∈ t.shared.journal) s := by
  refine .of_exec (exec_subrequestDone_of_live hp hserial completion) ?_
  show (h.completeChild p completion).Leaves (fun t => .destroyed p.ticket ∈ t.shared.journal) (completed s token)
  unfold completeChild
  cases hchild : p.child with
  | none => exact .bind_of_ok (exec_record _) (.raise List.mem_cons_self)
  | some child =>
    have ho : s.worker.isOpen p.caller = false := hn.resolve_right (by simp [hchild])
    have hn : ∀ k, s.worker.slots[p.caller]? = some k → ∃ r, s.worker.requests.get? k = some r :=
      fun _ => hs.occupied
    refine .bind_of_ok (exec_modifyWorker _) (.bind_of_ok (exec_openSlot?_of_not_open ho hn) ?_)
    exact ((keeps_destroyed p.ticket).settles p).abandon List.mem_cons_self

/-- Of the closures that are given or taken up in a state, those that are not to be run are destroyed at
    once: in a push that is refused, by a call that fails, with a thread that does not start, as a continuation
    that comes too late or too early, and as the callback of a completion that is skipped. -/
structure DestroysAtOnce (h : Host δ ω) (s : State δ ω) : Prop where
  push : ∀ {work t}, (h.push work).exec s = (.ok false, t) → .destroyed s.shared.nextTicket ∈ t.shared.journal
  send : ∀ {p}, (s.shared.send h.waker p).1 = false →
    .destroyed p.ticket ∈ (s.shared.send h.waker p).2.journal
  sendRequest : ∀ {k sub done e t}, (h.sendRequest k sub done).exec s = (.ok (.error e), t) →
    .destroyed s.shared.nextTicket ∈ t.shared.journal
  rootless : ∀ {k r message}, s.worker.requests.get? k = some r → r.checkLive = .ok () →
    (h.engine (.mainOf r.id) s.shared.world).1 = .error message → ∀ sub done,
    (h.sendRequest k sub done).Leaves (fun t => .destroyed s.shared.nextTicket ∈ t.shared.journal) s
  offload : ∀ {k work done e t}, (h.offload k work done).exec s = (.ok (.error e), t) →
    .destroyed s.shared.nextTicket ∈ t.shared.journal
  unstarted : ∀ {k r cause}, s.worker.requests.get? k = some r → r.checkLive = .ok () →
    (h.spawn r.id s.shared.world).1 = .error cause → ∀ work done, ∃ t,
    (h.offload k work done).exec s = (.ok (.error (.spawn cause)), t) ∧
    .destroyed s.shared.nextTicket ∈ t.shared.journal
  rejected : ∀ {target : Resumer}, (∀ r, s.worker.requests.get? target.slot = some r →
      r.serial = target.serial → r.phase ≠ .handling ∧ r.phase ≠ .suspended) → ∀ x code,
    (h.resume target x code).Leaves (fun t => .destroyed x ∈ t.shared.journal) s
  skipped : ∀ {token p}, s.worker.subrequests.get? token.slot = some p → p.serial = token.serial →
    s.worker.isOpen p.caller = false ∨ p.child = none → ∀ completion,
    (h.subrequestDone token completion).Leaves (fun t => .destroyed p.ticket ∈ t.shared.journal) s

end Host

/-- In every moment of a run. -/
theorem Course.destroysAtOnce (hs : Course s) : h.DestroysAtOnce s where
  push := Host.destroyed_of_push
  send := Shared.destroyed_of_send
  sendRequest := Host.destroyed_of_sendRequest
  rootless hr ho he := Host.destroyed_of_rootless hr ho he
  offload := Host.destroyed_of_offload
  unstarted hr ho hspawn work done := ⟨_, Host.exec_offload_of_refused hr ho hspawn work done, List.mem_cons_self⟩
  rejected hn := Host.destroyed_of_rejected hn
  skipped hp hserial hn := Host.destroyed_of_skipped hs hp hserial hn

/-! ### The end of the worker -/

/-- The closures with some tickets destroyed. -/
def Shared.destroyAll (sh : Shared δ ω) (tickets : List Nat) : Shared δ ω :=
  tickets.foldl (fun sh x => sh.record (.destroyed x)) sh

theorem Shared.destroyAll_eq (tickets : List Nat) (sh : Shared δ ω) : sh.destroyAll tickets =
    { sh with journal := (tickets.map Entry.destroyed).reverse ++ sh.journal } := by
  induction tickets generalizing sh with
  | nil => rfl
  | cons x tickets ih =>
    rw [List.map_cons, List.reverse_cons, List.append_assoc]
    exact ih _

theorem Accounted.destroyAll {tickets : List Nat} (hs : Accounted tickets s) :
    Accounted [] { s with shared := s.shared.destroyAll tickets } := by
  induction tickets generalizing s with
  | nil => exact hs
  | cons x tickets ih =>
    refine ih (s := Host.noted s (.destroyed x)) ?_
    exact hs.spend [.destroyed x] rfl rfl (fun _ => Nat.zero_le _) rfl rfl rfl fun _ => rfl

/-- The queue has been emptied and the records of the subrequests are gone; what they held is in hand. -/
theorem Accounted.emptied (hs : Accounted [] s) {items : List (Parcel δ ω)} (hq : s.shared.queue.Holds items)
    {queue : Queue.Channel (Parcel δ ω)} (hempty : queue.Holds []) :
    Accounted (items.map Parcel.ticket ++ s.worker.subrequests.values.map Pending.ticket)
      ⟨{ s.worker with subrequests := .empty }, { s.shared with queue }⟩ := by
  have hnothing : Journal.Aside [] := ⟨rfl, rfl, rfl⟩
  refine hs.aside hnothing rfl rfl fun items' hq' => ⟨[], hempty, ?_⟩
  obtain rfl := hq.unique hq'
  unfold State.waiting
  rw [List.map_nil, Arena.values_empty, List.map_nil, List.nil_append, List.append_nil, List.nil_append,
    List.append_assoc, List.append_assoc]
  exact List.perm_append_comm.append_left _

/-- What a worker that has been dropped in a state has left, with what its handles have done since: pushed
    closures, and let the threads of offloads end. -/
inductive Left (h : Host δ ω) (s : State δ ω) : Shared δ ω → Prop
  | closed : Left h s s.close
  | push {sh : Shared δ ω} (work : Work δ ω) : Left h s sh → Left h s (sh.push h.waker work).2
  | awaitOffload {sh : Shared δ ω} (index : Nat) : Left h s sh → Left h s (sh.awaitOffload h.waker index).2

/-- What a worker that is dropped leaves is accounted for, and so is what its handles make of it. -/
theorem Left.accounted (hs : Accounted [] s) (hl : Left h s sh) :
    Accounted [] ⟨{ s.worker with subrequests := .empty }, sh⟩ ∧ sh.queue.capacity = s.shared.queue.capacity := by
  induction hl with
  | closed =>
    obtain ⟨items, hq, -⟩ := hs.each
    obtain ⟨queue, hdrain, hempty, hcap⟩ := hq.drain_eq
    -- What the queue holds is destroyed first, and then what the subrequests hold.
    have hclose : s.close = Shared.destroyAll { s.shared with queue }
        (items.map Parcel.ticket ++ s.worker.subrequests.values.map Pending.ticket) := by
      unfold State.close
      rw [hdrain]
      rfl
    have hacc := (hs.emptied hq hempty).destroyAll
    rw [hclose]
    refine ⟨hacc, ?_⟩
    rw [Shared.destroyAll_eq]
    exact hcap
  | @push sh work _ ih =>
    let st : State δ ω := ⟨{ s.worker with subrequests := .empty }, sh⟩
    have hpush : (h.push work).Leaves (Services h none ([], st) []) st := Services.push .refl work
    have hd : Deeds h ([], st) [] _ := Services.deeds hpush
    exact ⟨hd.accounted ih.1, (Deeds.capacity hd).trans ih.2⟩
  | @awaitOffload sh index _ ih =>
    let st : State δ ω := ⟨{ s.worker with subrequests := .empty }, sh⟩
    have hawait : (h.awaitOffload index).Leaves (Services h none ([], st) []) st := Services.awaitOffload .refl index
    have hd : Deeds h ([], st) [] _ := Services.deeds hawait
    exact ⟨hd.accounted ih.1, (Deeds.capacity hd).trans ih.2⟩

/-- When the queue goes too, and no offload is left, every closure has been run or destroyed. -/
theorem Left.balance_close (hs : Accounted [] s) (hsize : s.shared.queue.capacity < UInt64.size) (hl : Left h s sh)
    (hoff : ∀ o ∈ sh.offloads.toList, o = none) : sh.close.journal.Balance [] := by
  obtain ⟨hacc, hcap⟩ := hl.accounted hs
  obtain ⟨items, hq, -⟩ := hacc.each
  obtain ⟨queue, -, hempty, hcap'⟩ := hq.drain_eq
  -- Emptied of what it destroys, the queue would be left with the same journal.
  have hclose : sh.close = sh.destroyAll (items.map Parcel.ticket) := by
    unfold Shared.close Shared.destroyAll
    rw [hq.held_eq (hcap ▸ hsize), List.foldl_map]
  have hgone := (hacc.emptied hq hempty).destroyAll
  rw [Arena.values_empty, List.map_nil, List.append_nil, Shared.destroyAll_eq] at hgone
  have hnone : sh.offloads.toList.filterMap id = [] := List.filterMap_eq_nil_iff.mpr hoff
  have hbalance := hgone.balance (hcap'.trans hcap ▸ hsize)
  unfold State.stored Shared.stored at hbalance
  rw [hempty.held_eq (hcap'.trans hcap ▸ hsize), hnone, Arena.values_empty] at hbalance
  rw [hclose, Shared.destroyAll_eq]
  exact hbalance

/-- Every closure that is handed to the bridge is run once or destroyed once. In every moment of a run,
    also within a hook, a task or a call on a request, the closures handed over are those that have been
    run, those that have been destroyed, those that the queue, the offloads and the subrequests hold, and
    those in the hand of the code at work; code that runs against a request leaves none in hand. So it is
    still after the worker has been dropped, at any time, while its handles push and offloads end; and
    when they are all gone, none is held. -/
theorem Reachable.custody_law (hs : Reachable h s) (hsize : s.shared.queue.capacity < UInt64.size) :
    (∀ {X u v slot}, Deeds h ([], s) X u → Spoken slot u v →
      v.shared.journal.Balance (X ++ v.stored) ∧ h.DestroysAtOnce v) ∧
    (∀ {u}, Deeds h ([], s) [] u → ∀ k code,
      (h.runCallback k code).Leaves (fun t => t.shared.journal.Balance t.stored) u) ∧
    (∀ {u}, Steps h s u → u.shared.journal.Balance u.stored) ∧
    (∀ {sh}, Left h s sh → sh.journal.Balance sh.stored ∧
      ∀ p, (sh.send h.waker p).1 = false → .destroyed p.ticket ∈ (sh.send h.waker p).2.journal) ∧
    ∀ {sh}, Left h s sh → (∀ o ∈ sh.offloads.toList, o = none) → sh.close.journal.Balance [] := by
  have hacc := hs.accounted
  have moment : ∀ {X u}, Deeds h ([], s) X u → u.shared.journal.Balance (X ++ u.stored) := fun hd =>
    (hd.accounted hacc).balance ((Deeds.capacity hd).symm ▸ hsize)
  refine ⟨fun {X u v slot} hd huv => ⟨?_, ((Deeds.course hs.course hd).served huv.served).destroysAtOnce⟩,
    fun hd k code => ?_,
    fun hst => moment (hst.deeds hs), fun hl => ?_, fun hl hoff => hl.balance_close hacc hsize hoff⟩
  · have hcap : v.shared.queue.capacity = u.shared.queue.capacity := by rw [huv.shared]
    exact ((hd.accounted hacc).spoken huv).balance (hcap.trans (Deeds.capacity hd) ▸ hsize)
  · exact ((Services.runCallback code .refl).mono fun t hst => moment (hd.services hst))
  · obtain ⟨hleft, hcap⟩ := hl.accounted hacc
    have hbalance := hleft.balance (hcap ▸ hsize)
    unfold State.stored at hbalance
    rw [Arena.values_empty, List.map_nil, List.append_nil] at hbalance
    exact ⟨hbalance, fun _ => Shared.destroyed_of_send⟩

/-- A callback that waits for a subrequest when the worker is dropped. -/
theorem custody_law_when_waiting :
    let h : Host Unit Unit := .prompt ⟨9⟩ (.waiting fun _ => .finish (.ok .ok))
    ∃ s, Reachable h s ∧ s.stored = [0] ∧ s.shared.journal.Balance [0] ∧ s.close.close.journal.Balance [] := by
  intro h
  obtain ⟨s, hs, hsize, hstored, hoff⟩ : ∃ s, Reachable h s ∧ s.shared.queue.capacity < UInt64.size ∧
      s.stored = [0] ∧ ∀ o ∈ (s.close.offloads.toList.map Option.isNone), o = true :=
    ⟨((h.run (.hook (.contentPhase ⟨1⟩) fun _ => .done)).exec State.fresh).2, Reachable.fresh.run _,
      by decide +kernel, by decide +kernel, by decide +kernel⟩
  obtain ⟨hmoments, -, -, -, hgone⟩ := Reachable.custody_law hs hsize
  have hsame : Spoken none s s := .refl s
  have hbalance := (hmoments .refl hsame).1
  rw [hstored] at hbalance
  exact ⟨s, hs, hstored, hbalance, hgone .closed fun o ho =>
    Option.isNone_iff_eq_none.mp (hoff _ (List.mem_map_of_mem ho))⟩

end EngineBridge
