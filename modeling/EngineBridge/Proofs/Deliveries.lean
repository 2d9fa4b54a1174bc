import EngineBridge.Proofs.Confined
import EngineBridge.Proofs.Reach
import Mathlib.Data.List.Nodup

/-! Continuations and completions that involve different requests can be delivered in any order. Each stays within its
    own part of the worker, apart from the record of the subrequest that it completes, so that none of them can be
    told from the others' parts to have come before or after them. -/

namespace EngineBridge
open EngineBridge.Action Registry
variable {δ ω σ : Type}

/-! ### Deliveries -/

/-- A continuation that is run, or the completion of a subrequest that is acted on. -/
inductive Delivery (δ ω : Type)
  | continuation (target : Resumer) (ticket : Nat) (code : Callback δ ω)
  | completion (token : SubToken) (completion : Completion)

/-- The slot of the record of the subrequest that is completed. -/
def Delivery.record? : Delivery δ ω → Option Nat
  | continuation _ _ _ => none
  | completion token _ => some token.slot

namespace Host
variable (h : Host δ ω)

def deliver : Delivery δ ω → Action δ ω Unit
  | .continuation target ticket code => h.resume target ticket code
  | .completion token completion => h.subrequestDone token completion

/-- The state after a delivery. -/
def delivered (s : State δ ω) (d : Delivery δ ω) : State δ ω := ((h.deliver d).exec s).2

/-- The state after one delivery after the other. -/
def deliverAll (s : State δ ω) (ds : List (Delivery δ ω)) : State δ ω := ds.foldl h.delivered s

end Host

namespace State
variable (s : State δ ω)

/-- A continuation is for a registration that is there, and what completes is live. The code that is to run does
    nothing but to use its own request. -/
def Ready : Delivery δ ω → Prop
  | .continuation target _ code =>
    (∃ r, s.worker.requests.get? target.slot = some r ∧ r.serial = target.serial) ∧ code.Plain
  | .completion token completion =>
    ∃ p, s.worker.subrequests.get? token.slot = some p ∧ p.serial = token.serial ∧ (p.done completion).Plain

/-- The requests that a delivery involves. -/
def involved : Delivery δ ω → List ReqId
  | .continuation target _ _ => ((s.worker.requests.get? target.slot).map Registration.id).toList
  | .completion token _ => ((s.worker.subrequests.get? token.slot).map Pending.involved).getD []

/-- What of the worker a delivery has to do with. -/
def part (d : Delivery δ ω) : Part where
  slots k := ∃ r, s.worker.requests.get? k = some r ∧ r.id ∈ s.involved d
  ids req := req ∈ s.involved d
  records i := d.record? = some i

end State

namespace Worker
variable (w : Worker δ ω) (d : Delivery δ ω)

/-- The child of the subrequest that is completed. -/
def child? : Option ReqId := d.record?.bind fun i => (w.subrequests.get? i).bind Pending.child

/-- The worker without the record of the subrequest that is completed, and all that goes with it. -/
def discharged : Worker δ ω :=
  { w with
    subrequests := match d.record? with
      | some i => w.subrequests.remove i
      | none => w.subrequests
    live := match d.record? with
      | some _ => w.live - 1
      | none => w.live
    targets := match w.child? d with
      | some child => w.targets.erase child
      | none => w.targets }

theorem get?_discharged (i : Nat) :
    (w.discharged d).subrequests.get? i = if d.record? = some i then none else w.subrequests.get? i := by
  unfold discharged
  dsimp only
  cases d.record? with
  | none => rfl
  | some j =>
    rw [Arena.get?_remove]
    simp only [Option.some.injEq, eq_comm]

theorem targets_discharged (req : ReqId) :
    (w.discharged d).targets[req]? = if w.child? d = some req then none else w.targets[req]? := by
  unfold discharged
  dsimp only
  cases w.child? d with
  | none => rfl
  | some child => simp only [ReqMap.get?_erase, Option.some.injEq]

end Worker

variable {view : ω → ReqId → σ} {h : Host δ ω} {P Q : Part} {s t u : State δ ω} {d e : Delivery δ ω}
  {ds ds' : List (Delivery δ ω)}

/-! ### What one delivery does -/

/-- The state in which what follows from the completion of a live subrequest begins. -/
def Host.underway (s : State δ ω) (token : SubToken) (completion : Completion) : State δ ω where
  worker := { s.worker.discharged (.completion token completion) with live := s.worker.live }
  shared := s.shared.record (.completed token)

theorem Host.underway_eq {p : Pending δ ω} {token : SubToken} (hp : s.worker.subrequests.get? token.slot = some p)
    (completion : Completion) : underway s token completion = { completed s token with
      worker := { (completed s token).worker with
        targets := match p.child with
          | some child => s.worker.targets.erase child
          | none => s.worker.targets } } := by
  have hchild : s.worker.child? (.completion token completion : Delivery δ ω) = p.child := congrArg (Option.bind · _) hp
  rw [← hchild]
  rfl

/-- What follows from a completion stays within the part of the requests that it involves. -/
theorem Host.completion_confined (hh : h.Separate view) {p : Pending δ ω} (hp : ∀ req ∈ p.involved, P.ids req)
    {token : SubToken} (hserial : p.serial = token.serial) {completion : Completion} (hcode : (p.done completion).Plain) :
    ∃ a : Action δ ω Unit, a.Confined view P ∧ ∀ s : State δ ω, s.worker.subrequests.get? token.slot = some p →
      h.delivered s (.completion token completion) = uncounted (a.exec (underway s token completion)).2 := by
  cases hchild : p.child with
  | none =>
    have confined : (h.completeChild p completion).Confined view P := by
      unfold completeChild
      rw [hchild]
      exact (Action.Confined.record fun _ => rfl).bind fun _ => .raise _
    refine ⟨_, confined, fun s hs => (congrArg Prod.snd (exec_subrequestDone_of_live hs hserial completion)).trans ?_⟩
    rw [underway_eq hs, hchild]
    rfl
  | some child =>
    refine ⟨_, .complete hh hp hcode, fun s hs => ?_⟩
    refine (congrArg Prod.snd (exec_subrequestDone_of_child hs hserial hchild completion)).trans ?_
    rw [underway_eq hs, hchild]
    rfl

/-- The count of live subrequests, and the records that go, are no part's. -/
theorem Action.Confined.underway {a : Action δ ω Unit} (ha : a.Confined view P) (hs : P.Fits view s) (token : SubToken)
    (completion : Completion) :
    { s with worker := s.worker.discharged (.completion token completion) }.Within view P
        (Host.uncounted (a.exec (Host.underway s token completion)).2) ∧
      ∀ t, P.Fits view t → s.Agree view P t → (Host.uncounted (a.exec (Host.underway s token completion)).2).Agree view P
        (Host.uncounted (a.exec (Host.underway t token completion)).2) := by
  have fits : ∀ {s : State δ ω}, P.Fits view s → P.Fits view (Host.underway s token completion) :=
    fun hs => ⟨hs.slots, hs.ids, hs.logger⟩
  obtain ⟨hsu, hrun⟩ := ha _ (fits hs)
  refine ⟨⟨?_, ?_, hsu.ids, hsu.requests, hsu.views, hsu.calls⟩, fun t ht hst => ?_⟩
  · exact congrArg (fun w : Worker δ ω => { w with live := w.live - 1 }) hsu.worker
  · exact hsu.shared
  · refine { (hrun _ (fits ht) { hst with
      records := fun {i} hi => ?_
      calls := hst.calls }).2 with }
    have get? : ∀ s : State δ ω, (Host.underway s token completion).worker.subrequests.get? i =
        if some token.slot = some i then none else s.worker.subrequests.get? i :=
      fun s => s.worker.get?_discharged (.completion token completion) i
    rw [get?, get?, hst.records hi]

/-- A delivery changes nothing outside of its part, apart from the record of what it completes, and comes to the same
    wherever that part is the same. -/
theorem Host.delivered_confined (hh : h.Separate view) (hs : (s.part d).Fits view s) (hd : s.Ready d) :
    { s with worker := s.worker.discharged d }.Within view (s.part d) (h.delivered s d) ∧
      ∀ t, (s.part d).Fits view t → s.Agree view (s.part d) t →
        (h.delivered s d).Agree view (s.part d) (h.delivered t d) := by
  cases d with
  | continuation target ticket code =>
    obtain ⟨⟨r, hr, -⟩, hcode⟩ := hd
    have hk : (s.part (.continuation target ticket code)).slots target.slot := ⟨r, hr, by simp [State.involved, hr]⟩
    obtain ⟨hsu, hrun⟩ := Action.Confined.resume hh hk ticket hcode s hs
    exact ⟨hsu, fun t ht hst => (hrun t ht hst).2⟩
  | completion token completion =>
    obtain ⟨p, hp, hserial, hcode⟩ := hd
    have hinvolved : ∀ req ∈ p.involved, (s.part (.completion token completion)).ids req := fun req hreq => by
      simpa [State.part, State.involved, hp] using hreq
    -- the record is the same in every state that agrees with this one, so the same action follows
    obtain ⟨a, ha, hexec⟩ := Host.completion_confined hh hinvolved hserial hcode
    obtain ⟨hsu, hrun⟩ := ha.underway hs token completion
    rw [hexec s hp]
    refine ⟨hsu, fun t ht hst => ?_⟩
    rw [hexec t ((hst.records rfl).trans hp)]
    exact hrun t ht hst

/-! ### What other deliveries find -/

/-- Two parts have nothing in common. -/
structure Part.Apart (P Q : Part) : Prop where
  slots : ∀ k, ¬(P.slots k ∧ Q.slots k)
  ids : ∀ req, ¬(P.ids req ∧ Q.ids req)
  records : ∀ i, ¬(P.records i ∧ Q.records i)

theorem Part.Apart.symm (hPQ : P.Apart Q) : Q.Apart P :=
  ⟨fun k hk => hPQ.slots k hk.symm, fun req hreq => hPQ.ids req hreq.symm, fun i hi => hPQ.records i hi.symm⟩

/-- Deliveries that involve different requests have nothing in common: a subrequest is not completed twice, since that
    would involve its root twice. -/
theorem State.apart_of_disjoint (hd : s.Ready d) (hdisjoint : (s.involved d).Disjoint (s.involved e)) :
    (s.part d).Apart (s.part e) where
  slots := by
    rintro k ⟨⟨r, hr, hmem⟩, r', hr', hmem'⟩
    cases hr.symm.trans hr'
    exact hdisjoint hmem hmem'
  ids _ hreq := hdisjoint hreq.1 hreq.2
  records := by
    rintro i ⟨hi, hi'⟩
    cases d with
    | continuation => cases hi
    | completion token completion =>
      cases e with
      | continuation => cases hi'
      | completion token' completion' =>
        obtain ⟨p, hp, -⟩ := hd
        have hslot : token'.slot = token.slot := Option.some.inj (hi'.trans hi.symm)
        exact hdisjoint (a := p.root) (by simp [State.involved, hp, p.root_mem_involved])
          (by simp [State.involved, hslot, hp, p.root_mem_involved])

/-- A delivery for which nothing has changed is as ready as before, and has to do with the same. -/
theorem State.Agree.ready (hst : s.Agree view (s.part e) t) (he : s.Ready e) : t.Ready e ∧ t.involved e = s.involved e := by
  cases e with
  | continuation target ticket code =>
    obtain ⟨⟨r, hr, hserial⟩, hcode⟩ := he
    have hr' : t.worker.requests.get? target.slot = some r :=
      (hst.requests ⟨r, hr, by simp [State.involved, hr]⟩).trans hr
    exact ⟨⟨⟨r, hr', hserial⟩, hcode⟩, by simp [State.involved, hr, hr']⟩
  | completion token completion =>
    obtain ⟨p, hp, hserial, hcode⟩ := he
    have hp' : t.worker.subrequests.get? token.slot = some p := (hst.records rfl).trans hp
    exact ⟨⟨p, hp', hserial, hcode⟩, by simp [State.involved, hp, hp']⟩

/-- From one state to another a delivery has done what it does, and nothing else has changed. -/
abbrev State.Follows (view : ω → ReqId → σ) (d : Delivery δ ω) (s t : State δ ω) : Prop :=
  { s with worker := s.worker.discharged d }.Within view (s.part d) t

namespace State.Follows

theorem subrequests (hst : State.Follows view d s t) (i : Nat) :
    t.worker.subrequests.get? i = if d.record? = some i then none else s.worker.subrequests.get? i := by
  rw [hst.worker]
  exact s.worker.get?_discharged d i

theorem live (hst : State.Follows view d s t) : t.worker.live = match d.record? with
    | some _ => s.worker.live - 1
    | none => s.worker.live := by
  rw [hst.worker]
  rfl

theorem targets (hst : State.Follows view d s t) (req : ReqId) :
    t.worker.targets[req]? = if s.worker.child? d = some req then none else s.worker.targets[req]? := by
  rw [hst.worker]
  exact s.worker.targets_discharged d req

theorem rest (hst : State.Follows view d s t) : t.worker = { s.worker with
    requests := t.worker.requests
    subrequests := t.worker.subrequests
    live := t.worker.live
    targets := t.worker.targets } := by
  rw [hst.worker]
  rfl

/-- What lies apart from a delivery is found as it was. -/
theorem agree (hst : State.Follows view d s t) (hP : P.Apart (s.part d)) : s.Agree view P t where
  id := by rw [hst.worker]; rfl
  filter := by rw [hst.worker]; rfl
  logger := by rw [hst.worker]; rfl
  slots _ := by rw [hst.worker]; rfl
  requests hk := hst.requests fun hk' => hP.slots _ ⟨hk, hk'⟩
  records hi := (hst.subrequests _).trans (if_neg fun hi' => hP.records _ ⟨hi, hi'⟩)
  views hreq := hst.views fun hreq' => hP.ids _ ⟨hreq, hreq'⟩
  calls hreq := hst.calls fun hreq' => hP.ids _ ⟨hreq, hreq'⟩

theorem part_eq (hst : State.Follows view d s t) (hinvolved : t.involved e = s.involved e) : t.part e = s.part e := by
  have slots : ∀ k, (t.part e).slots k ↔ (s.part e).slots k := by
    intro k
    constructor
    · rintro ⟨r, hr, hmem⟩
      obtain ⟨r', hr', hid⟩ := hst.get?_before hr
      exact ⟨r', hr', by rwa [hid, ← hinvolved]⟩
    · rintro ⟨r, hr, hmem⟩
      obtain ⟨r', hr', hid⟩ := hst.get? hr
      exact ⟨r', hr', by rwa [hid, hinvolved]⟩
  unfold State.part at slots ⊢
  rw [hinvolved] at slots ⊢
  exact congrArg (Part.mk · _ _) (funext fun k => propext (slots k))

end State.Follows

/-! ### What a worker awaits -/

/-- Deliveries are ready, and none of them involves a request that another one involves. -/
structure State.Awaits (view : ω → ReqId → σ) (s : State δ ω) (ds : List (Delivery δ ω)) : Prop where
  named : ∀ {req : ReqId} {k : Nat}, s.worker.slots[req]? = some k → ∃ r, s.worker.requests.get? k = some r ∧ r.id = req
  logger : s.worker.LogsApart view
  ready : ∀ d ∈ ds, s.Ready d
  independent : ds.Pairwise fun d e => (s.involved d).Disjoint (s.involved e)

theorem State.Awaits.fits (hs : s.Awaits view ds) (d : Delivery δ ω) : (s.part d).Fits view s where
  slots hreq hk := by
    obtain ⟨r, hr, hid⟩ := hs.named hk
    exact ⟨r, hr, hid ▸ hreq⟩
  ids := by
    rintro k r ⟨r', hr', hmem⟩ hr
    cases hr.symm.trans hr'
    exact hmem
  logger := hs.logger

namespace State.Awaits

theorem perm (hs : s.Awaits view ds) (hds : ds.Perm ds') : s.Awaits view ds' :=
  { hs with
    ready := fun d hd => hs.ready d (hds.mem_iff.mpr hd)
    independent := (hds.pairwise_iff List.disjoint_symm).mp hs.independent }

theorem apart (hs : s.Awaits view (d :: ds)) (he : e ∈ ds) : (s.part d).Apart (s.part e) :=
  State.apart_of_disjoint (hs.ready d List.mem_cons_self) ((List.pairwise_cons.mp hs.independent).1 e he)

variable (hh : h.Separate view)
include hh

theorem follows (hs : s.Awaits view (d :: ds)) : State.Follows view d s (h.delivered s d) :=
  (h.delivered_confined hh (hs.fits d) (hs.ready d List.mem_cons_self)).1

theorem still (hs : s.Awaits view (d :: ds)) (he : e ∈ ds) :
    (h.delivered s d).Ready e ∧ (h.delivered s d).involved e = s.involved e :=
  State.Agree.ready ((hs.follows hh).agree (hs.apart he).symm) (hs.ready e (List.mem_cons_of_mem _ he))

theorem tail (hs : s.Awaits view (d :: ds)) : (h.delivered s d).Awaits view ds := by
  have hst := hs.follows hh
  refine ⟨fun hk => ?_, ?_, fun e he => (hs.still hh he).1, ?_⟩
  · rw [hst.rest] at hk
    obtain ⟨r, hr, hid⟩ := hs.named hk
    obtain ⟨r', hr', hrr'⟩ := hst.get? hr
    exact ⟨r', hr', hrr'.trans hid⟩
  · rw [hst.rest]
    exact hs.logger
  · refine (List.pairwise_cons.mp hs.independent).2.imp_of_mem fun he he' hdisjoint => ?_
    rwa [(hs.still hh he).2, (hs.still hh he').2]

/-- One of the others comes to the same in its own part as it would have come to before. -/
theorem agree_delivered (hs : s.Awaits view (d :: ds)) (he : e ∈ ds) :
    (h.delivered s e).Agree view (s.part e) (h.delivered (h.delivered s d) e) := by
  have hfits : (s.part e).Fits view (h.delivered s d) := by
    rw [← (hs.follows hh).part_eq (hs.still hh he).2]
    exact (hs.tail hh).fits e
  exact (h.delivered_confined hh (hs.fits e) (hs.ready e (List.mem_cons_of_mem _ he))).2 _ hfits
    ((hs.follows hh).agree (hs.apart he).symm)

end State.Awaits

/-! ### The order of deliveries -/

/-- Two states have the same registrations, names, records of subrequests and targets, the engine has been called alike
    about each request, and what it sees of each request is the same. -/
structure State.Matches (view : ω → ReqId → σ) (s t : State δ ω) : Prop where
  requests : ∀ k, t.worker.requests.get? k = s.worker.requests.get? k
  subrequests : ∀ i, t.worker.subrequests.get? i = s.worker.subrequests.get? i
  live : t.worker.live = s.worker.live
  targets : ∀ req : ReqId, t.worker.targets[req]? = s.worker.targets[req]?
  views : ∀ req, view t.shared.world req = view s.shared.world req
  calls : ∀ req, t.shared.journal.callsAbout req = s.shared.journal.callsAbout req
  worker : t.worker = { s.worker with
    requests := t.worker.requests
    subrequests := t.worker.subrequests
    live := t.worker.live
    targets := t.worker.targets }
  shared : t.shared = { s.shared with world := t.shared.world, journal := t.shared.journal }

namespace State.Matches

theorem refl (s : State δ ω) : s.Matches view s :=
  ⟨fun _ => rfl, fun _ => rfl, rfl, fun _ => rfl, fun _ => rfl, fun _ => rfl, rfl, rfl⟩

theorem trans (hst : s.Matches view t) (htu : t.Matches view u) : s.Matches view u where
  requests k := (htu.requests k).trans (hst.requests k)
  subrequests i := (htu.subrequests i).trans (hst.subrequests i)
  live := htu.live.trans hst.live
  targets req := (htu.targets req).trans (hst.targets req)
  views req := (htu.views req).trans (hst.views req)
  calls req := (htu.calls req).trans (hst.calls req)
  worker := htu.worker.trans (by rw [hst.worker])
  shared := htu.shared.trans (by rw [hst.shared])

theorem agree (hst : s.Matches view t) : s.Agree view P t where
  id := by rw [hst.worker]
  filter := by rw [hst.worker]
  logger := by rw [hst.worker]
  slots _ := by rw [hst.worker]
  requests _ := hst.requests _
  records _ := hst.subrequests _
  views _ := hst.views _
  calls _ := hst.calls _

theorem child? (hst : s.Matches view t) (d : Delivery δ ω) : t.worker.child? d = s.worker.child? d := by
  unfold Worker.child?
  simp only [hst.subrequests]

theorem part_eq (hst : s.Matches view t) (hd : s.Ready d) : t.part d = s.part d := by
  unfold State.part
  rw [(State.Agree.ready hst.agree hd).2]
  simp only [hst.requests]

theorem awaits (hst : s.Matches view t) (hs : s.Awaits view ds) : t.Awaits view ds where
  named hk := by
    rw [hst.worker] at hk
    obtain ⟨r, hr, hid⟩ := hs.named hk
    exact ⟨r, (hst.requests _).trans hr, hid⟩
  logger := by
    rw [hst.worker]
    exact hs.logger
  ready d hd := (State.Agree.ready hst.agree (hs.ready d hd)).1
  independent := hs.independent.imp_of_mem fun hd he hdisjoint => by
    rwa [(State.Agree.ready hst.agree (hs.ready _ hd)).2, (State.Agree.ready hst.agree (hs.ready _ he)).2]

end State.Matches

/-- Of two changes one matters under one condition, the other under another one, and never both. So in either order
    they come to the same. -/
theorem eq_of_apart {α : Type} {p q : Prop} (hpq : ¬(p ∧ q)) {x y z yz zy : α} (hy : ¬p → y = x) (hz : ¬q → z = x)
    (hyz : ¬q → yz = y) (hzy : ¬p → zy = z) (hq : q → yz = z) (hp : p → zy = y) : zy = yz := by
  by_cases p
  · next h => rw [hp h, hyz fun h' => hpq ⟨h, h'⟩]
  · next h =>
    by_cases q
    · next h' => rw [hzy h, hq h']
    · next h' => rw [hzy h, hz h', hyz h', hy h]

theorem eq_of_same {α : Type} {p : Prop} {x x' y y' : α} (hx : x' = x) (hp : p → y' = y) (hy : ¬p → y = x)
    (hy' : ¬p → y' = x') : y' = y := by
  by_cases p
  · next h => exact hp h
  · next h => rw [hy' h, hx, hy h]

section
variable (hh : h.Separate view)
include hh

/-- From states that match, a delivery leads to states that match. -/
theorem State.Matches.delivered (hst : s.Matches view t) (hs : s.Awaits view (d :: ds)) :
    (h.delivered s d).Matches view (h.delivered t d) := by
  have hd := hs.ready d List.mem_cons_self
  have hpart := hst.part_eq hd
  have hsu := hs.follows hh
  have htv : { t with worker := t.worker.discharged d }.Within view (s.part d) (h.delivered t d) :=
    hpart ▸ (hst.awaits hs).follows hh
  have hfits : (s.part d).Fits view t := hpart ▸ (hst.awaits hs).fits d
  have hrun := (h.delivered_confined hh (hs.fits d) hd).2 t hfits hst.agree
  have htv' : State.Follows view d t (h.delivered t d) := (hst.awaits hs).follows hh
  refine ⟨fun k => ?_, fun i => ?_, ?_, fun req => ?_, fun req => ?_, fun req => ?_, ?_, ?_⟩
  · exact eq_of_same (hst.requests k) hrun.requests hsu.requests htv.requests
  · rw [htv'.subrequests, hsu.subrequests, hst.subrequests]
  · rw [htv'.live, hsu.live, hst.live]
  · rw [htv'.targets, hsu.targets, hst.targets, hst.child?]
  · exact eq_of_same (hst.views req) hrun.views hsu.views htv.views
  · exact eq_of_same (hst.calls req) hrun.calls hsu.calls htv.calls
  · rw [htv'.rest, hsu.rest, hst.worker]
  · rw [htv.shared, hsu.shared, hst.shared]

/-- A delivery that comes after another one leaves alone what it would have left alone before. -/
theorem State.Awaits.follows_delivered (hs : s.Awaits view (d :: e :: ds)) :
    { h.delivered s d with worker := (h.delivered s d).worker.discharged e }.Within view (s.part e)
      (h.delivered (h.delivered s d) e) := by
  rw [← (hs.follows hh).part_eq (hs.still hh List.mem_cons_self).2]
  exact (hs.tail hh).follows hh

/-- The child of a subrequest is known as long as its own completion has not come. -/
theorem State.Awaits.child?_delivered (hs : s.Awaits view (d :: ds)) (he : e ∈ ds) :
    (h.delivered s d).worker.child? e = s.worker.child? e := by
  unfold Worker.child?
  cases hi : e.record? with
  | none => rfl
  | some i =>
    have hne : d.record? ≠ some i := fun hi' => (hs.apart he).records i ⟨hi', hi⟩
    simp only [Option.bind_some, (hs.follows hh).subrequests, if_neg hne]

/-- Two deliveries come to the same in either order. -/
theorem State.Awaits.swap (hs : s.Awaits view (d :: e :: ds)) :
    (h.delivered (h.delivered s d) e).Matches view (h.delivered (h.delivered s e) d) := by
  have hs' : s.Awaits view (e :: d :: ds) := hs.perm (.swap e d ds)
  have hapart : (s.part d).Apart (s.part e) := hs.apart List.mem_cons_self
  have hd := hs.follows hh
  have he := hs'.follows hh
  have hde := hs.follows_delivered hh
  have hed := hs'.follows_delivered hh
  have hde' := (hs.tail hh).follows hh
  have hed' := (hs'.tail hh).follows hh
  have hrun_e := hs.agree_delivered hh List.mem_cons_self
  have hrun_d := hs'.agree_delivered hh List.mem_cons_self
  -- each part is as its own delivery leaves it, whichever comes first, and the rest is as it was
  refine ⟨fun k => ?_, fun i => ?_, ?_, fun req => ?_, fun req => ?_, fun req => ?_, ?_, ?_⟩
  · exact eq_of_apart (hapart.slots k) hd.requests he.requests hde.requests hed.requests hrun_e.requests hrun_d.requests
  · rw [hed'.subrequests, he.subrequests, hde'.subrequests, hd.subrequests]
    rw [← ite_or, ← ite_or]
    exact if_congr or_comm rfl rfl
  · rw [hed'.live, he.live, hde'.live, hd.live]
    cases d.record? <;> cases e.record? <;> rfl
  · rw [hed'.targets, he.targets, hde'.targets, hd.targets, hs.child?_delivered hh List.mem_cons_self,
      hs'.child?_delivered hh List.mem_cons_self, ← ite_or, ← ite_or]
    exact if_congr or_comm rfl rfl
  · exact eq_of_apart (hapart.ids req) hd.views he.views hde.views hed.views hrun_e.views hrun_d.views
  · exact eq_of_apart (hapart.ids req) hd.calls he.calls hde.calls hed.calls hrun_e.calls hrun_d.calls
  · rw [hed'.rest, he.rest, hde'.rest, hd.rest]
  · rw [hed.shared, he.shared, hde.shared, hd.shared]

theorem State.Matches.deliverAll (hst : s.Matches view t) (hs : s.Awaits view ds) :
    (h.deliverAll s ds).Matches view (h.deliverAll t ds) := by
  induction ds generalizing s t with
  | nil => exact hst
  | cons d ds ih => exact ih (hst.delivered hh hs) (hs.tail hh)

/-- Any number of deliveries come to the same in any order. -/
theorem State.Awaits.deliverAll_perm (hs : s.Awaits view ds) (hds : ds.Perm ds') :
    (h.deliverAll s ds).Matches view (h.deliverAll s ds') := by
  induction hds generalizing s with
  | nil => exact .refl s
  | cons d _ ih => exact ih (hs.tail hh)
  | swap d e ds => exact (hs.swap hh).deliverAll hh ((hs.tail hh).tail hh)
  | trans hds _ ih ih' => exact (ih hs).trans (ih' (hs.perm hds))

end

/-- Continuations and completions that involve different requests can be delivered in any order, if the code that they
    run does nothing but to use its own request, and engine and logger keep requests apart: the registrations, the
    subrequests that are live and where children are to be sent are the same in the end, and about each request the
    engine has been called alike. -/
theorem Reachable.commuting_law (hs : Reachable h s) (hh : h.Separate view) (hl : s.worker.LogsApart view)
    (hready : ∀ d ∈ ds, s.Ready d) (hindependent : ds.Pairwise fun d e => (s.involved d).Disjoint (s.involved e))
    (hds : ds.Perm ds') : (h.deliverAll s ds).Matches view (h.deliverAll s ds') :=
  State.Awaits.deliverAll_perm hh ⟨hs.course.named, hl, hready, hindependent⟩ hds

/-- Two requests wait for their subrequests. One of them is completed, and a continuation responds to the other
    request. -/
theorem commuting_law_when_both_end :
    let h : Host Unit Unit := .prompt ⟨9⟩ (.waiting fun _ => .finish (.ok .ok))
    let done : Delivery Unit Unit := .completion ⟨0, 2⟩ ⟨⟨9⟩, 0, 200, []⟩
    let resumed : Delivery Unit Unit :=
      .continuation ⟨1, 3, ⟨2⟩⟩ 7 (.call (.conclude [104, 105]) fun _ => .finish (.ok (.status 503)))
    ∃ s, Reachable h s ∧
      (h.deliverAll s [done, resumed]).Matches (fun _ _ => ()) (h.deliverAll s [resumed, done]) ∧
      ((h.deliverAll s [done, resumed]).worker.requests.get? 0).map Registration.phase = some .finalized ∧
      ((h.deliverAll s [done, resumed]).worker.requests.get? 1).map Registration.phase = some .finalized ∧
      (h.deliverAll s [done, resumed]).worker.live = 1 := by
  intro h done resumed
  let code : Task Unit Unit := .hook (.contentPhase ⟨1⟩) fun _ => .hook (.contentPhase ⟨2⟩) fun _ => .done
  let s := ((h.run code).exec State.fresh).2
  have hs : Reachable h s := Reachable.fresh.run _
  have separate : h.Separate (fun _ _ => ()) :=
    ⟨fun {c req w w'} _ _ _ => ⟨rfl, rfl⟩, fun _ _ _ _ => rfl, fun _ _ _ _ => rfl, fun _ _ _ => rfl⟩
  have apart : s.worker.LogsApart (fun _ _ => ()) := by
    have hlogger : s.worker.logger = none := by decide +kernel
    intro logger hl
    rw [hlogger] at hl
    cases hl
  have hrecord : (s.worker.subrequests.get? 0).map (fun p => (p.serial, p.involved, p.done ⟨⟨9⟩, 0, 200, []⟩ matches .finish _)) =
      some (2, [⟨1⟩], true) := by decide +kernel
  obtain ⟨p, hp, hrecord⟩ := Option.map_eq_some_iff.mp hrecord
  simp only [Prod.mk.injEq] at hrecord
  obtain ⟨hserial, hinvolved, hfinish⟩ := hrecord
  have hregistration : (s.worker.requests.get? 1).map (fun r => (r.serial, r.id)) = some (3, ⟨2⟩) := by decide +kernel
  obtain ⟨r, hr, hregistration⟩ := Option.map_eq_some_iff.mp hregistration
  simp only [Prod.mk.injEq] at hregistration
  have hdone : s.Ready done := by
    refine ⟨p, hp, hserial, ?_⟩
    cases hcode : p.done ⟨⟨9⟩, 0, 200, []⟩ with
    | finish result => exact .finish result
    | _ => rw [hcode] at hfinish; cases hfinish
  have hresumed : s.Ready resumed := ⟨⟨r, hr, hregistration.1⟩, .call _ fun _ => .finish _⟩
  have hready : ∀ d ∈ [done, resumed], s.Ready d := by
    simp only [List.mem_cons, List.not_mem_nil, or_false]
    rintro d (rfl | rfl)
    · exact hdone
    · exact hresumed
  have hindependent : [done, resumed].Pairwise fun d e => (s.involved d).Disjoint (s.involved e) := by
    simp [done, resumed, State.involved, hp, hr, hinvolved, hregistration]
  exact ⟨s, hs, hs.commuting_law separate apart hready hindependent (.swap _ _ _), by decide +kernel, by decide +kernel,
    by decide +kernel⟩

end EngineBridge
