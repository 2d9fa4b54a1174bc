import EngineBridge.Proofs.Closures
import EngineBridge.Proofs.Lifecycle
import Mathlib.Data.List.Nodup
import Mathlib.Data.List.Perm.Subperm

/-! Offloads, and what code hands over to threads and to the queue. An offload that has been made runs until its
    thread has ended, waits in the queue with its result until a tick takes it, or has been lost because the queue
    had no room. -/

namespace EngineBridge
open EngineBridge.Action Registry
variable {δ ω α β : Type} {h : Host δ ω} {s t u : State δ ω} {k : Nat} {r : Registration} {o : Offload δ ω}
  {made gone : List (Offload δ ω)}

/-! ### Where offloads are -/

/-- The closure that the thread of an offload sends to the worker when the work has come to its result. -/
def Offload.parcel (o : Offload δ ω) : Parcel δ ω := ⟨o.ticket, .continuation o.target (o.done (o.work o.threadName))⟩

/-- The offloads whose threads have not ended. -/
def State.running (s : State δ ω) : List (Offload δ ω) := s.shared.offloads.toList.filterMap id

/-- Of the offloads that have been made, those that are not gone run, wait in the queue or have been lost. Nothing
    else waits in the queue, and nothing else has been lost. -/
structure State.Splits (s : State δ ω) (made gone waiting lost : List (Offload δ ω)) : Prop where
  queue : s.shared.queue.Holds (waiting.map Offload.parcel)
  failed : s.shared.failed = .ofNat lost.length
  perm : (s.running ++ waiting ++ lost ++ gone).Perm made
  room : 0 < s.shared.queue.capacity
  /-- What has been lost has found the queue full. -/
  filled : lost ≠ [] → waiting ++ gone ≠ []

/-- The offloads that have been made are accounted for, with those that are gone. -/
def State.Carries (s : State δ ω) (made gone : List (Offload δ ω)) : Prop :=
  ∃ waiting lost, s.Splits made gone waiting lost

/-- There are no more requests than words, so the requests of offloads that have been lost can be counted in one. -/
theorem State.Splits.lost_lt {waiting lost : List (Offload δ ω)} (hs : s.Splits made gone waiting lost)
    (hn : (made.map fun o => o.target.req).Nodup) : lost.length < UInt64.size := by
  have hinj : Function.Injective fun r : ReqId => r.val.toNat := by
    rintro ⟨a⟩ ⟨b⟩ hab
    exact congrArg _ (UInt64.toNat_inj.mp hab)
  have hsub : (made.map fun o => o.target.req).map (fun r => r.val.toNat) ⊆ List.range UInt64.size := by
    intro n hmem
    obtain ⟨r, -, rfl⟩ := List.mem_map.mp hmem
    exact List.mem_range.mpr r.val.toNat_lt
  have hmade := ((hn.map hinj).subperm hsub).length_le
  have hlength := hs.perm.length_eq
  have hfilled : lost ≠ [] → 0 < (waiting ++ gone).length := fun hlost => List.length_pos_of_ne_nil (hs.filled hlost)
  simp only [List.length_map, List.length_range, List.length_append] at hmade hlength hfilled
  by_cases hempty : lost = []
  · rw [hempty]
    exact Nat.zero_lt_succ _
  · have := hfilled hempty
    omega

/-- From one state to another nothing has been done with threads and the queue. -/
structure Unsent (s t : State δ ω) : Prop where
  queue : t.shared.queue = s.shared.queue
  offloads : t.shared.offloads = s.shared.offloads
  failed : t.shared.failed = s.shared.failed

theorem Unsent.trans (hst : Unsent s t) (htu : Unsent t u) : Unsent s u :=
  ⟨htu.queue.trans hst.queue, htu.offloads.trans hst.offloads, htu.failed.trans hst.failed⟩

theorem Spoken.unsent {slot : Option Nat} (hst : Spoken slot s t) : Unsent s t := by
  constructor <;> rw [hst.shared]

theorem Unsent.log (hst : Unsent s t) (notice : Log.Notice) (req : Option ReqId) :
    (h.log notice req).Leaves (Unsent s) t :=
  (Spoken.log notice req).mono fun u (htu : Spoken none t u) => hst.trans htu.unsent

namespace State.Carries

/-- It does not matter in which order the offloads are gone. -/
theorem reorder {gone' : List (Offload δ ω)} (hs : s.Carries made gone) (hp : gone.Perm gone') :
    s.Carries made gone' := by
  obtain ⟨waiting, lost, hq, hfailed, hperm, hroom, hfilled⟩ := hs
  refine ⟨waiting, lost, hq, hfailed, (hp.symm.append_left _).trans hperm, hroom, fun hlost hnil => ?_⟩
  obtain ⟨hwaiting, hgone'⟩ := List.append_eq_nil_iff.mp hnil
  refine hfilled hlost ?_
  subst hgone'
  rw [hwaiting, hp.eq_nil]
  rfl

theorem of_unsent (hs : s.Carries made gone) (hst : Unsent s t) : t.Carries made gone := by
  obtain ⟨waiting, lost, hq, hfailed, hperm, hroom, hfilled⟩ := hs
  refine ⟨waiting, lost, ?_, ?_, ?_, ?_, hfilled⟩
  · rwa [hst.queue]
  · rwa [hst.failed]
  · unfold State.running
    rwa [hst.offloads]
  · rwa [hst.queue]

theorem offloaded (hs : s.Carries made gone) (o : Offload δ ω) : (Host.offloaded s o).Carries (o :: made) gone := by
  obtain ⟨waiting, lost, hq, hfailed, hperm, hroom, hfilled⟩ := hs
  refine ⟨waiting, lost, hq, hfailed, ?_, hroom, hfilled⟩
  have hrunning : ((Host.offloaded s o).running).Perm (o :: s.running) := by
    show ((s.shared.offloads.push (some o)).toList.filterMap id).Perm _
    rw [Array.toList_push, List.filterMap_append]
    exact List.perm_append_singleton o _
  exact (((hrunning.append_right _).append_right _).append_right _).trans (hperm.cons o)

/-- The thread of an offload ends, if it has been running: its closure is put into the queue, or lost. -/
theorem awaitOffload (hs : s.Carries made gone) (index : Nat) :
    (h.awaitOffload index).Leaves (fun t => t.Carries made gone) s := by
  obtain ⟨waiting, lost, hq, hfailed, hperm, hroom, hfilled⟩ := hs
  show State.Carries { s with shared := (s.shared.awaitOffload h.waker index).2 } made gone
  unfold Shared.awaitOffload
  split
  · next o ho =>
    have hl : s.shared.offloads.toList[index]? = some (some o) := by
      rw [Array.getElem?_toList]
      exact Option.join_eq_some_iff.mp ho
    let s' := Host.offloadEnded s index
    have hrunning : (o :: s'.running).Perm s.running := by
      have hset := Arena.perm_set hl none
      show (o :: (s.shared.offloads.setIfInBounds index none).toList.filterMap id).Perm _
      rw [Array.toList_setIfInBounds]
      exact hset
    have hall : (s'.running ++ (waiting ++ [o]) ++ lost ++ gone).Perm made := by
      refine List.Perm.trans ?_ hperm
      refine ((List.Perm.trans ?_ (hrunning.append_right waiting)).append_right _).append_right _
      rw [← List.append_assoc]
      exact List.perm_append_singleton o _
    have hq' : s'.shared.queue.Holds (waiting.map Offload.parcel) := hq
    show State.Carries { s' with shared := (s'.shared.send h.waker o.parcel).2 } made gone
    rcases Shared.send_cases hq' h.waker o.parcel with ⟨queue, world, hq'', hcapacity, heq⟩ | ⟨world, hfull, heq⟩ <;>
      rw [heq]
    · refine ⟨waiting ++ [o], lost, ?_, hfailed, hall, hroom.trans_eq hcapacity.symm, by simp⟩
      rw [List.map_append]
      exact hq''
    · have hwaiting : waiting ≠ [] := by
        rintro rfl
        exact absurd (hroom.trans_le hfull) (Nat.lt_irrefl 0)
      refine ⟨waiting, o :: lost, hq', ?_, List.Perm.trans ?_ hall, hroom, by simp [hwaiting]⟩
      · rw [List.length_cons, UInt64.ofNat_add, ← hfailed]
        rfl
      · simp only [List.append_assoc, List.cons_append, List.nil_append]
        exact .refl _
  · exact ⟨waiting, lost, hq, hfailed, hperm, hroom, hfilled⟩

/-- What is taken from the queue is an offload that waits there. -/
theorem take {p : Parcel δ ω} {sh : Shared δ ω} (hs : s.Carries made gone) (htake : s.shared.take = (some p, sh)) :
    ∃ o, p = o.parcel ∧ o ∈ made ∧ State.Carries { s with shared := sh } made (o :: gone) := by
  obtain ⟨waiting, lost, hq, hfailed, hperm, hroom, hfilled⟩ := hs
  obtain ⟨rest, queue, hitems, hq', hcapacity, rfl⟩ := Shared.take_eq_some hq htake
  cases waiting with
  | nil => cases hitems
  | cons o waiting =>
    obtain ⟨rfl, rfl⟩ := List.cons.inj hitems
    refine ⟨o, rfl, hperm.subset (by simp), waiting, lost, hq', hfailed, List.Perm.trans ?_ hperm,
      hroom.trans_eq hcapacity.symm, by simp⟩
    show (s.running ++ waiting ++ lost ++ o :: gone).Perm (s.running ++ o :: waiting ++ lost ++ gone)
    simp only [List.append_assoc, List.cons_append]
    exact ((List.perm_middle.append_left waiting).trans List.perm_middle).append_left _

end State.Carries

/-! ### What code hands over -/

/-- What code gives to a thread or to the queue. -/
inductive Transfer (δ ω : Type)
  | offload (o : Offload δ ω)
  | push (work : Work δ ω)

/-- What comes of the answer of an action and of the state that it leaves, if it comes to its end. -/
def Action.follow (a : Action δ ω α) (s : State δ ω) (f : α → State δ ω → List β) : List β :=
  match a.exec s with
  | (.ok x, t) => f x t
  | (.error _, _) => []

/-- The offload that is made of work and a closure for the request in a slot, if that is not over and a thread
    starts. -/
def Host.offload? (h : Host δ ω) (s : State δ ω) (k : Nat) (work : String → Except String String)
    (done : Except String String → Callback δ ω) : Option (Offload δ ω) :=
  (s.worker.requests.get? k).bind fun r =>
    if r.phase = .finalized then none
    else (h.spawn r.id s.shared.world).1.toOption.map fun _ =>
      { ticket := s.shared.nextTicket, target := ⟨k, r.serial, r.id⟩, work, done }

/-- The offloads that code makes and the closures that it pushes when it is run against the request in a slot. -/
def Host.transfers (h : Host δ ω) (k : Nat) : Callback δ ω → State δ ω → List (Transfer δ ω)
  | .finish _, _ | .panic _, _ => []
  | .call c next, s => (h.answer k c).follow s fun x => transfers h k (next x)
  | .data change next, s => (changeData change).follow s fun x => transfers h k (next x)
  | .world change next, s => (changeWorld change).follow s fun x => transfers h k (next x)
  | .sendRequest sub done next, s => (h.sendRequest k sub done).follow s fun x => transfers h k (next x)
  | .offload work done next, s =>
    (h.offload? s k work done).toList.map .offload ++ (h.offload k work done).follow s fun x => transfers h k (next x)
  | .push work next, s => .push work :: (h.push work).follow s fun x => transfers h k (next x)
  | .failedCount next, s => failedCount.follow s fun x => transfers h k (next x)
  | .awaitOffload index next, s => (h.awaitOffload index).follow s fun x => transfers h k (next x)

/-! ### Code at work -/

/-- A request that is no anchor issues subrequests without pushing anything. -/
theorem unsent_sendRequest (hr : s.worker.requests.get? k = some r) (ha : r.anchor = false) (sub : Subrequest)
    (done : Completion → Callback δ ω) : (h.sendRequest k sub done).Leaves (Unsent s) s := by
  refine Host.leaves_sendRequest hr ⟨rfl, rfl, rfl⟩ (fun _ _ _ => ⟨rfl, rfl, rfl⟩) fun root _ _ => ?_
  refine Host.leaves_createChild (p := Host.recordOf s sub done root) rfl (fun _ _ => ⟨rfl, rfl, rfl⟩) (fun _ _ => ?_) fun _ _ => ?_
  · refine Unsent.log ?_ _ _
    exact ⟨rfl, rfl, rfl⟩
  · unfold Host.runPosted
    rw [ha]
    exact ⟨rfl, rfl, rfl⟩

namespace Host

/-- Code of a request that is not over makes its offload, if a thread starts. -/
theorem exec_offload_of_some {work : String → Except String String} {done : Except String String → Callback δ ω}
    (ho : h.offload? s k work done = some o) :
    (h.offload k work done).exec s = (.ok (.ok .async), offloaded (h.spawned (handed s) o.target.req) o) := by
  unfold offload? at ho
  obtain ⟨r, hr, ho⟩ := Option.bind_eq_some_iff.mp ho
  split at ho
  · cases ho
  · next hp =>
    obtain ⟨_, hspawn, rfl⟩ := Option.map_eq_some_iff.mp ho
    have hstart : (h.startThread r.id).exec (handed s) = (.ok (.ok ()), h.spawned (handed s) r.id) := by
      have hexec := h.exec_startThread (handed s) r.id
      cases hx : (h.spawn r.id s.shared.world).1 with
      | error cause =>
        rw [hx] at hspawn
        cases hspawn
      | ok => exact hexec.trans (congrArg (fun x => (Except.ok x, h.spawned (handed s) r.id)) hx)
    unfold offload
    rw [exec_bind_of_ok (exec_registration_of_some hr), exec_bind_of_ok (exec_hand s)]
    unfold Registration.checkLive
    rw [if_neg hp]
    exact exec_bind_of_ok hstart

/-- For a request that is over, or not there, or for which no thread starts, no offload is made. -/
theorem unsent_offload {work : String → Except String String} {done : Except String String → Callback δ ω}
    (ho : h.offload? s k work done = none) : (h.offload k work done).Leaves (Unsent s) s := by
  cases hr : s.worker.requests.get? k with
  | none => exact leaves_registration ⟨rfl, rfl, rfl⟩ fun r hr' => by cases hr.symm.trans hr'
  | some r =>
    refine leaves_offload hr ⟨rfl, rfl, rfl⟩ (fun _ _ _ => ⟨rfl, rfl, rfl⟩) fun hp hspawn => ?_
    rw [offload?, hr, Option.bind_some, if_neg hp, hspawn] at ho
    cases ho

end Host

/-- Code is at work on a registration of this course, and these are the offloads. -/
structure State.Works (s : State δ ω) (k : Nat) (r : Registration) (made gone : List (Offload δ ω)) : Prop where
  held : (s.worker.requests.get? k).map Registration.course = some r.course
  carries : s.Carries made gone

/-- Code has been at work on a registration of this course, and has made further offloads for it. -/
def State.Worked (s : State δ ω) (k : Nat) (r : Registration) (made gone os : List (Offload δ ω)) : Prop :=
  s.Works k r (os.reverse ++ made) gone ∧ ∀ o ∈ os, o.target = ⟨k, r.serial, r.id⟩

namespace State.Works

theorem get? (hs : s.Works k r made gone) : ∃ r', s.worker.requests.get? k = some r' ∧ r'.course = r.course :=
  Option.map_eq_some_iff.mp hs.held

theorem mono {a : Action δ ω α} (hs : s.Works k r made gone) (ha : a.Leaves (Services h (some k) ([], s) []) s)
    (hu : a.Leaves (fun t => t.Carries made gone) s) : a.Leaves (fun t => t.Works k r made gone) s :=
  ⟨((Services.served (a := ([], s)) ha).course k).trans hs.held, hu⟩

theorem offload {work : String → Except String String} {done : Except String String → Callback δ ω}
    (hs : s.Works k r made gone) (ho : h.offload? s k work done = some o) :
    o.target = ⟨k, r.serial, r.id⟩ ∧
      (Host.offloaded (h.spawned (Host.handed s) o.target.req) o).Works k r (o :: made) gone := by
  have hcarries : (h.spawned (Host.handed s) o.target.req).Carries made gone := hs.carries.of_unsent ⟨rfl, rfl, rfl⟩
  refine ⟨?_, hs.held, hcarries.offloaded o⟩
  obtain ⟨r', hr', hrr'⟩ := hs.get?
  obtain ⟨hid, hserial, -⟩ := Registration.course_inj hrr'
  rw [Host.offload?, hr', Option.bind_some] at ho
  split at ho
  · cases ho
  · obtain ⟨_, -, rfl⟩ := Option.map_eq_some_iff.mp ho
    rw [hid, hserial]

end State.Works

namespace State.Worked
variable {os : List (Offload δ ω)}

theorem cons (hs : s.Worked k r (o :: made) gone os) (ho : o.target = ⟨k, r.serial, r.id⟩) :
    s.Worked k r made gone (o :: os) := by
  refine ⟨?_, List.forall_mem_cons.mpr ⟨ho, hs.2⟩⟩
  rw [List.reverse_cons, List.append_assoc]
  exact hs.1

/-- An action that makes no offload, and what follows it. -/
theorem bind {a : Action δ ω α} {f : α → Action δ ω β} {g : α → State δ ω → List (Transfer δ ω)}
    (ha : a.Leaves (fun t => t.Works k r made gone) s) (hos : a.follow s g = os.map .offload)
    (hf : ∀ x t, t.Works k r made gone → g x t = os.map .offload →
      (f x).Leaves (fun u => u.Worked k r made gone os) t) :
    (a >>= f).Leaves (fun u => u.Worked k r made gone os) s := by
  unfold Leaves at ha ⊢
  unfold follow at hos
  rw [exec_bind]
  rcases hr : a.exec s with ⟨_ | x, t⟩ <;> rw [hr] at ha hos
  · obtain rfl := List.map_eq_nil_iff.mp hos.symm
    exact ⟨ha, by simp⟩
  · exact hf x t ha hos

/-- Code that gives nothing to threads and to the queue but these offloads. -/
theorem runCallback (ha : r.anchor = false) : ∀ (code : Callback δ ω) {s : State δ ω} {made os : List (Offload δ ω)},
    s.Works k r made gone → h.transfers k code s = os.map .offload →
      (h.runCallback k code).Leaves (fun t => t.Worked k r made gone os) s
  | .finish _, s, made, os, hs, hos | .panic _, s, made, os, hs, hos => by
    obtain rfl := List.map_eq_nil_iff.mp hos.symm
    exact ⟨hs, by simp⟩
  | .call c next, _, _, _, hs, hos =>
    bind (hs.mono (.answer .refl c) ((Spoken.answer c).mono fun _ ht => hs.carries.of_unsent ht.unsent)) hos
      fun x _ ht hos => runCallback ha (next x) ht hos
  | .data change next, _, _, _, hs, hos =>
    bind (hs.mono (h := h) (.changeData .refl change) (hs.carries.of_unsent ⟨rfl, rfl, rfl⟩)) hos
      fun x _ ht hos => runCallback ha (next x) ht hos
  | .world change next, _, _, _, hs, hos =>
    bind (hs.mono (h := h) (.changeWorld .refl change) (hs.carries.of_unsent ⟨rfl, rfl, rfl⟩)) hos
      fun x _ ht hos => runCallback ha (next x) ht hos
  | .sendRequest sub done next, s, _, _, hs, hos => by
    obtain ⟨r', hr', hrr'⟩ := hs.get?
    obtain ⟨-, -, -, -, hanchor⟩ := Registration.course_inj hrr'
    have hu := unsent_sendRequest (h := h) hr' (hanchor.trans ha) sub done
    exact bind (hs.mono (.sendRequest .refl sub done) (hu.mono fun _ => hs.carries.of_unsent)) hos
      fun x _ ht hos => runCallback ha (next x) ht hos
  | .offload work done next, s, made, os, hs, hos => by
    cases ho : h.offload? s k work done with
    | none =>
      rw [Host.transfers, ho] at hos
      refine bind (hs.mono (h := h) (.offload .refl work done) ?_) hos fun x _ ht hos => runCallback ha (next x) ht hos
      exact (Host.unsent_offload ho).mono fun _ => hs.carries.of_unsent
    | some o =>
      have hexec := Host.exec_offload_of_some ho
      rw [Host.transfers, ho, follow, hexec] at hos
      cases os with
      | nil => cases hos
      | cons o' os =>
        obtain ⟨heq, hrest⟩ := List.cons.inj hos
        cases heq
        obtain ⟨htarget, ht⟩ := hs.offload ho
        exact .bind_of_ok hexec ((runCallback ha (next _) ht hrest).mono fun _ hu => hu.cons htarget)
  | .push work next, _, _, os, _, hos => by
    cases os <;> simp [Host.transfers] at hos
  | .failedCount next, _, _, _, hs, hos =>
    bind (hs.mono (h := h) (.failedCount .refl) hs.carries) hos fun x _ ht hos => runCallback ha (next x) ht hos
  | .awaitOffload index next, _, _, _, hs, hos =>
    bind (hs.mono (.awaitOffload .refl index) (hs.carries.awaitOffload index)) hos
      fun x _ ht hos => runCallback ha (next x) ht hos

end State.Worked

end EngineBridge
