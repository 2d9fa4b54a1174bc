import EngineBridge.Proofs.Stumbling

/-! Requests whose handlers each make one offload and leave them open for its continuation. In the order in which the
    threads end, and however that falls among the ticks, each offload comes to one of two ends: its continuation runs
    and ends its request, or it finds no room in the queue and its request waits for ever. Only a continuation whose
    fault has no text leaves its request as it has run against it. -/

namespace EngineBridge
open EngineBridge.Action Registry
variable {δ ω : Type}

/-! ### The runs -/

namespace Host

/-- Runs, the latest act first, in which every handler makes one offload, which succeeds, pushes nothing and returns
    what the offload has answered, and in which continuations push nothing, make no offloads and do not return
    `async`. No request is released or registered again. Threads end between acts, or where code waits for them. The
    offloads that have been made are given, the latest one first. -/
inductive Offloading (h : Host δ ω) (s : State δ ω) : List (Act δ ω) → List (Offload δ ω) → Prop
  | nil : Offloading h s [] []
  | handler {acts made a k code u o} : Offloading h s acts made → (h.after s acts).Allows a →
    h.Starts (h.after s acts) a .handler k code u → h.transfers k code u = [.offload o] →
    ((h.runCallback k code).exec u).1 = .ok (.ok .async) → Offloading h s (a :: acts) (o :: made)
  | continuation {acts made x k code u} : Offloading h s acts made →
    h.Starts (h.after s acts) .next (.continuation x) k code u → h.transfers k code u = [] →
    ((h.runCallback k code).exec u).1 ≠ .ok (.ok .async) → Offloading h s (.next :: acts) made
  | idle {acts made a} : Offloading h s acts made → (h.after s acts).Allows a →
    (∀ role k code u, ¬h.Starts (h.after s acts) a role k code u) → Offloading h s (a :: acts) made

/-- After a run the continuation of an offload is taken from the queue, and starts to run in a state, with the result of
    the work of the offload, against the registration that the offload was made for. -/
def Continues (h : Host δ ω) (s : State δ ω) (earlier : List (Act δ ω)) (o : Offload δ ω) (u : State δ ω) : Prop :=
  ∃ sh, (h.after s earlier).shared.take = (some o.parcel, sh) ∧
    u = resuming { h.after s earlier with shared := sh } o.target o.ticket ∧
    h.Starts (h.after s earlier) .next (.continuation o.ticket) o.target.slot (o.done (o.work o.threadName)) u

/-- In a run the continuation of an offload has been taken from the queue and has run, and what it came to has ended its
    request. -/
def Fulfils (h : Host δ ω) (s : State δ ω) (acts : List (Act δ ω)) (o : Offload δ ω) : Prop :=
  ∃ later earlier u result rc, acts = later ++ .next :: earlier ∧ h.Continues s earlier o u ∧
    h.explained (held ((h.runCallback o.target.slot (o.done (o.work o.threadName))).exec u).1) = .ok result ∧
    verdict result = some rc ∧
    (h.after s (.next :: earlier)).shared.journal.finalizes =
      (h.after s earlier).shared.journal.finalizes ++ [(o.target.req, rc)]

/-- In a run the continuation of an offload has been taken from the queue and has run, and has returned a fault whose
    text could not be made. -/
def Stalls (h : Host δ ω) (s : State δ ω) (acts : List (Act δ ω)) (o : Offload δ ω) : Prop :=
  ∃ later earlier u message, acts = later ++ .next :: earlier ∧ h.Continues s earlier o u ∧
    h.Stumbles (h.runCallback o.target.slot (o.done (o.work o.threadName))) u message

section
variable {h : Host δ ω} {s : State δ ω} {acts : List (Act δ ω)} {o : Offload δ ω}

theorem Fulfils.cons (ho : h.Fulfils s acts o) (a : Act δ ω) : h.Fulfils s (a :: acts) o := by
  obtain ⟨later, earlier, u, result, rc, rfl, hrest⟩ := ho
  exact ⟨a :: later, earlier, u, result, rc, rfl, hrest⟩

theorem Stalls.cons (ho : h.Stalls s acts o) (a : Act δ ω) : h.Stalls s (a :: acts) o := by
  obtain ⟨later, earlier, u, message, rfl, hrest⟩ := ho
  exact ⟨a :: later, earlier, u, message, rfl, hrest⟩

theorem Displays.not_stalls (hd : h.Displays) : ¬h.Stalls s acts o := by
  rintro ⟨_, _, _, _, -, -, hstumbles⟩
  exact hd.not_stumbles hstumbles

end

end Host

variable {h : Host δ ω} {s t u : State δ ω} {k : Nat} {target : Resumer} {req : ReqId} {acts : List (Act δ ω)}
  {code : Callback δ ω} {o : Offload δ ω} {made gone past stuck : List (Offload δ ω)}

/-! ### What has been made and what is still owed -/

/-- These offloads have been made. The continuations of those that are over have ended their requests, of whose ends
    alone the engine has been told, and those of others have left them stuck; the requests of all others wait. -/
structure State.Owes (s : State δ ω) (made past stuck : List (Offload δ ω)) : Prop where
  carries : s.Carries made (stuck ++ past)
  names : (made.map fun o => o.target.req).Nodup
  closed : ∀ o ∈ past, s.Stands o.target .finalized
  left : ∀ o ∈ stuck, s.Stands o.target .resumed
  waits : ∀ o ∈ made, o ∈ stuck ++ past ∨ s.Stands o.target .suspended
  ends : s.shared.journal.finalizes.map Prod.fst = (past.map fun o => o.target.req).reverse
  anchorless : s.Anchorless
  calm : s.worker.LogsCalmly

theorem State.Carries.subset (hs : s.Carries made gone) : gone ⊆ made := by
  obtain ⟨waiting, lost, hs⟩ := hs
  exact fun o ho => hs.perm.subset (List.mem_append_right _ ho)

theorem State.Carries.nodup (hs : s.Carries made gone) (hn : (made.map fun o => o.target.req).Nodup) :
    (gone.map fun o => o.target.req).Nodup := by
  obtain ⟨waiting, lost, hs⟩ := hs
  have hall := (hs.perm.map fun o => o.target.req).nodup_iff.mpr hn
  rw [List.map_append] at hall
  exact (List.nodup_append.mp hall).2.1

namespace State.Owes

theorem opened {store : Queue.Store} {config : Config} {data : δ} {world : ω}
    (hs : State.open store config data world = .ok s) : s.Owes [] [] [] := by
  obtain rfl := State.open_eq hs
  have hsplits : (State.mk (.new config data) (.new store config world)).Splits [] [] [] [] :=
    ⟨Queue.Channel.holds_new _ _ _, rfl, .refl _, Queue.Channel.capacity_new_pos _ _ _, fun hlost => (hlost rfl).elim⟩
  refine ⟨⟨[], [], hsplits⟩, .nil, by simp, by simp, by simp, rfl, fun _ _ hr => ?_, ?_⟩
  · cases hr
  · exact .of_isNone rfl

theorem spares (hs : s.Owes made past stuck) (hst : s.Spares t) : t.Owes made past stuck where
  carries := hst.carries hs.carries
  names := hs.names
  closed o ho := hst.stands (by decide) (hs.closed o ho)
  left o ho := hst.stands (by decide) (hs.left o ho)
  waits o ho := (hs.waits o ho).imp_right (hst.stands (by decide))
  ends := hst.ends ▸ hs.ends
  anchorless := hst.anchorless hs.anchorless
  calm := hst.calm hs.calm

theorem stands (hs : s.Owes made past stuck) (ho : o ∈ made) : ∃ p, p ≠ .handling ∧ s.Stands o.target p := by
  rcases hs.waits o ho with ho | hwaits
  · rcases List.mem_append.mp ho with ho | ho
    · exact ⟨_, by decide, hs.left o ho⟩
    · exact ⟨_, by decide, hs.closed o ho⟩
  · exact ⟨_, by decide, hwaits⟩

theorem slot_ne (hs : s.Owes made past stuck) (ht : s.Stands target .handling) (ho : o ∈ made) :
    o.target.slot ≠ target.slot := by
  intro hslot
  obtain ⟨p, hp, ho⟩ := hs.stands ho
  exact hp (ho.phase_inj ht hslot)

end State.Owes

/-! ### What comes of results -/

theorem verdict_of_ne {result : Except String Outcome} (hr : result ≠ .ok .async) : ∃ rc, verdict result = some rc := by
  rcases result with message | _ | code | _
  · exact ⟨500, rfl⟩
  · exact ⟨0, rfl⟩
  · exact ⟨(Outcome.status code).rc, rfl⟩
  · exact absurd rfl hr

theorem explained_eq_async {x : Except Stop (Except Fault Outcome)} (hx : h.explained (held x) = .ok (.ok .async)) :
    x = .ok (.ok .async) := by
  rcases x with (message | _) | fault | outcome
  · cases hx
  · cases hx
  · unfold held Host.explained at hx
    cases htext : h.text fault <;> simp only [htext] at hx <;> cases hx
  · cases hx
    rfl

namespace Host

theorem exec_apply_async {p : Phase} (hs : s.Stands target p) (hp : p ≠ .finalized) :
    (h.apply target.slot (.ok .async)).exec s = (.ok (), moved s target.slot target.serial .suspended) := by
  obtain ⟨-, r, hr, -, hserial, rfl⟩ := hs
  unfold apply
  dsimp only
  rw [exec_bind_of_ok (exec_registration_of_some hr), if_pos hp, ← hserial]
  exact exec_setPhase hr

/-- Every other result ends the request, after a line has been logged at most. -/
theorem Calm.exec_apply {p : Phase} (hc : h.Calm) (hl : s.worker.LogsCalmly) (hs : s.Stands target p)
    (hp : p ≠ .finalized) {result : Except String Outcome} {rc : Int32} (hv : verdict result = some rc) :
    ∃ t r, Spoken none s t ∧ t.worker.requests.get? target.slot = some r ∧
      (h.apply target.slot result).exec s = (.ok (), h.ended t target.slot r rc) := by
  obtain ⟨-, r, hr, -, -, rfl⟩ := hs
  rcases result with message | _ | code | _
  · cases hv
    obtain ⟨t, ht, hst⟩ := hc.exec_log hl (.handlerFailed message) (some r.id)
    obtain ⟨r', hr', hrr'⟩ := hst.get? hr
    obtain ⟨-, -, hphase, -⟩ := Registration.course_inj hrr'
    refine ⟨t, r', hst, hr', ?_⟩
    unfold apply
    dsimp only
    rw [exec_bind_of_ok (exec_registration_of_some hr), exec_bind_of_ok ht]
    exact hc.exec_finalize hr' (hphase ▸ hp) 500
  · cases hv
    exact ⟨s, r, .refl s, hr, hc.exec_finalize hr hp 0⟩
  · cases hv
    exact ⟨s, r, .refl s, hr, hc.exec_finalize hr hp _⟩
  · cases hv

end Host

/-! ### Each start keeps the account -/

/-- Code that runs against a request makes these offloads for it. -/
theorem State.Stands.runCallback {p : Phase} {os : List (Offload δ ω)} (hs : s.Stands target p) (ha : s.Anchorless)
    (hc : s.Carries made gone) (hos : h.transfers target.slot code s = os.map .offload) :
    (h.runCallback target.slot code).Leaves (fun t => Served (some target.slot) s t ∧
      t.Carries (os.reverse ++ made) gone ∧ ∀ o ∈ os, o.target = target) s := by
  obtain ⟨-, r, hr, hid, hserial, -⟩ := hs
  have hworks : s.Works target.slot r made gone := ⟨by rw [hr]; rfl, hc⟩
  obtain ⟨⟨-, hcarries⟩, htarget⟩ := State.Worked.runCallback (ha _ _ hr) code hworks hos
  refine ⟨Served.runCallback code, hcarries, fun o ho => ?_⟩
  rw [htarget o ho, hid, hserial]

namespace State.Owes

/-- A handler makes its offload and leaves its request open. -/
theorem handled (hs : s.Owes made past stuck) (hhandling : s.Stands target .handling)
    (htransfers : h.transfers target.slot code s = [.offload o])
    (hresult : ((h.runCallback target.slot code).exec s).1 = .ok (.ok .async)) :
    (h.applied s target.slot code).2.Owes (o :: made) past stuck := by
  have hmade : h.transfers target.slot code s = [o].map .offload := htransfers
  have hrun := hhandling.runCallback hs.anchorless hs.carries hmade
  unfold Host.applied
  unfold Leaves at hrun
  rw [hresult]
  generalize ((h.runCallback target.slot code).exec s).2 = t at hrun ⊢
  obtain ⟨hserved, hcarries, htarget⟩ := hrun
  obtain rfl := htarget o List.mem_cons_self
  have hexec := Host.exec_apply_async (h := h) (hhandling.served hserved) (by decide)
  rw [Host.exec_explain_bind_of_ok rfl, hexec]
  -- The other requests are in other slots.
  have others : ∀ {o' q}, o' ∈ made → s.Stands o'.target q →
      (moved t o.target.slot o.target.serial .suspended).Stands o'.target q := fun ho' hq =>
    (hq.served hserved).moved_of_ne (hs.slot_ne hhandling ho') _ _
  refine ⟨hcarries.of_unsent ⟨rfl, rfl, rfl⟩, ?_, fun o' ho' => ?_, fun o' ho' => ?_, fun o' ho' => ?_, ?_,
    (hs.anchorless.served hserved).moved _ _, hs.calm.congr hserved.logger⟩
  · refine List.nodup_cons.mpr ⟨fun hm => ?_, hs.names⟩
    obtain ⟨o', ho', hreq⟩ := List.mem_map.mp hm
    have hslots : s.worker.slots[o'.target.req]? = s.worker.slots[o.target.req]? := congrArg _ hreq
    refine hs.slot_ne hhandling ho' (Option.some.inj (Eq.trans ?_ (hslots.trans hhandling.1)))
    obtain ⟨p, -, hstands⟩ := hs.stands ho'
    exact hstands.1.symm
  · exact others (hs.carries.subset (List.mem_append_right _ ho')) (hs.closed o' ho')
  · exact others (hs.carries.subset (List.mem_append_left _ ho')) (hs.left o' ho')
  · rcases List.mem_cons.mp ho' with rfl | ho'
    · exact .inr ((hhandling.served hserved).moved _ _)
    · exact (hs.waits o' ho').imp_right (others ho')
  · exact (Journal.finalizes_of_eq [.moved _ _] rfl rfl).trans hserved.finalizes ▸ hs.ends

end State.Owes

/-- The continuation of an offload is at work for its request; the requests of the others stand as they are owed. -/
structure State.Settling (s : State δ ω) (made past stuck : List (Offload δ ω)) (o : Offload δ ω) : Prop where
  carries : s.Carries made (o :: (stuck ++ past))
  names : (made.map fun o => o.target.req).Nodup
  resumed : s.Stands o.target .resumed
  apart : ∀ o' ∈ stuck, o'.target.slot ≠ o.target.slot
  closed : ∀ o ∈ past, s.Stands o.target .finalized
  left : ∀ o ∈ stuck, s.Stands o.target .resumed
  waits : ∀ o' ∈ made, o' = o ∨ o' ∈ stuck ++ past ∨ s.Stands o'.target .suspended
  ends : s.shared.journal.finalizes.map Prod.fst = (past.map fun o => o.target.req).reverse
  anchorless : s.Anchorless
  calm : s.worker.LogsCalmly

theorem Host.finalizes_resuming {p : Parcel δ ω} {sh : Shared δ ω} (htake : s.shared.take = (some p, sh)) (x : Nat) :
    (Host.resuming { s with shared := sh } target x).shared.journal.finalizes = s.shared.journal.finalizes := by
  obtain ⟨queue, -, rfl⟩ := Shared.pop_of_take htake
  exact Journal.finalizes_of_eq [.started _ _, .ran _, .moved _ _, .taken _] rfl rfl

/-- A continuation that is taken from the queue is that of an offload whose request waits. -/
theorem State.Owes.taken {p : Parcel δ ω} {sh : Shared δ ω} (hs : s.Owes made past stuck)
    (htake : s.shared.take = (some p, sh)) : ∃ o, p = o.parcel ∧ s.Stands o.target .suspended ∧
      (Host.resuming { s with shared := sh } o.target o.ticket).Settling made past stuck o := by
  obtain ⟨o, rfl, ho, hcarries⟩ := hs.carries.take htake
  have hne : o ∉ stuck ++ past := fun hm =>
    (List.nodup_cons.mp (hcarries.nodup hs.names)).1 (List.mem_map_of_mem hm)
  have hstands : s.Stands o.target .suspended := (hs.waits o ho).resolve_left hne
  have hstands' : State.Stands { s with shared := sh } o.target .suspended := hstands.of_eq rfl rfl
  have others : ∀ {target p}, target.slot ≠ o.target.slot → s.Stands target p →
      (Host.resuming { s with shared := sh } o.target o.ticket).Stands target p := by
    intro target p hne hs
    have hs' : State.Stands { s with shared := sh } target p := hs.of_eq rfl rfl
    exact (hs'.moved_of_ne hne o.target.serial .resumed).of_eq rfl rfl
  have hapart : ∀ o' ∈ stuck, o'.target.slot ≠ o.target.slot := fun o' ho' hslot => by
    cases (hs.left o' ho').phase_inj hstands hslot
  refine ⟨o, rfl, hstands, hcarries.of_unsent ⟨rfl, rfl, rfl⟩, hs.names,
    (hstands'.moved o.target.serial .resumed).of_eq rfl rfl, hapart, fun o' ho' => ?_,
    fun o' ho' => others (hapart o' ho') (hs.left o' ho'), fun o' ho' => ?_, ?_, ?_, hs.calm⟩
  · refine others (fun hslot => ?_) (hs.closed o' ho')
    cases (hs.closed o' ho').phase_inj hstands hslot
  · by_cases hslot : o'.target.slot = o.target.slot
    · refine .inl (List.inj_on_of_nodup_map hs.names ho' ho ?_)
      obtain ⟨p, -, hs'⟩ := hs.stands ho'
      exact hs'.req_inj hstands hslot
    · exact .inr ((hs.waits o' ho').imp_right (others hslot))
  · rw [Host.finalizes_resuming htake, hs.ends]
  · exact State.Anchorless.moved (s := { s with shared := sh }) hs.anchorless o.target.serial .resumed

namespace State.Settling

theorem served {slot : Option Nat} (hs : s.Settling made past stuck o) (hst : Served slot s t)
    (hcarries : t.Carries made (o :: (stuck ++ past))) : t.Settling made past stuck o where
  carries := hcarries
  names := hs.names
  resumed := hs.resumed.served hst
  apart := hs.apart
  closed o' ho' := (hs.closed o' ho').served hst
  left o' ho' := (hs.left o' ho').served hst
  waits o' ho' := (hs.waits o' ho').imp_right (.imp_right fun hs' => hs'.served hst)
  ends := hst.finalizes ▸ hs.ends
  anchorless := hs.anchorless.served hst
  calm := hs.calm.congr hst.logger

/-- A continuation whose fault has no text leaves its request as it is. -/
theorem stalled (hs : s.Settling made past stuck o) : s.Owes made past (o :: stuck) where
  carries := hs.carries
  names := hs.names
  closed := hs.closed
  left o' ho' := by
    rcases List.mem_cons.mp ho' with rfl | ho'
    · exact hs.resumed
    · exact hs.left o' ho'
  waits o' ho' := by
    rcases hs.waits o' ho' with rfl | hm | hs'
    · exact .inl List.mem_cons_self
    · exact .inl (List.mem_cons_of_mem o hm)
    · exact .inr hs'
  ends := hs.ends
  anchorless := hs.anchorless
  calm := hs.calm

theorem ended {r : Registration} (hs : s.Settling made past stuck o)
    (hr : s.worker.requests.get? o.target.slot = some r) (rc : Int32) : (h.ended s o.target.slot r rc).Owes made (o :: past) stuck ∧
      (h.ended s o.target.slot r rc).shared.journal.finalizes = s.shared.journal.finalizes ++ [(o.target.req, rc)] := by
  obtain ⟨-, r', hr', hid, -⟩ := hs.resumed
  rw [hr] at hr'
  cases hr'
  have hends : (h.ended s o.target.slot r rc).shared.journal.finalizes =
      s.shared.journal.finalizes ++ [(o.target.req, rc)] := by
    rw [← hid]
    exact Journal.finalizes_append [.called _ _ _, .moved _ _] _
  have others : ∀ {target p}, target.slot ≠ o.target.slot → s.Stands target p →
      (h.ended s o.target.slot r rc).Stands target p := fun hne hs' =>
    (hs'.moved_of_ne hne r.serial .finalized).of_eq rfl rfl
  have apart : ∀ {target p}, p ≠ .resumed → s.Stands target p → target.slot ≠ o.target.slot := fun hp hs' hslot =>
    hp (hs'.phase_inj hs.resumed hslot)
  have hover : (h.ended s o.target.slot r rc).Stands o.target .finalized :=
    (hs.resumed.moved r.serial .finalized).of_eq rfl rfl
  have hgone : (o :: (stuck ++ past)).Perm (stuck ++ o :: past) := List.perm_middle.symm
  refine ⟨⟨(hs.carries.reorder hgone).of_unsent ⟨rfl, rfl, rfl⟩, hs.names, fun o' ho' => ?_,
    fun o' ho' => others (hs.apart o' ho') (hs.left o' ho'), fun o' ho' => ?_, ?_,
    hs.anchorless.moved r.serial .finalized, hs.calm⟩, hends⟩
  · rcases List.mem_cons.mp ho' with rfl | ho'
    · exact hover
    · exact others (apart (by decide) (hs.closed o' ho')) (hs.closed o' ho')
  · rcases hs.waits o' ho' with rfl | hm | hs'
    · exact .inl (List.mem_append_right _ List.mem_cons_self)
    · exact .inl (hgone.subset (List.mem_cons_of_mem o hm))
    · exact .inr (others (apart (by decide) hs') hs')
  · rw [hends, List.map_append, hs.ends]
    exact List.reverse_cons.symm

/-- A continuation that makes no offload and does not return `async` ends the request, unless its fault has no text. -/
theorem applied (hc : h.Calm) (hs : s.Settling made past stuck o) (htransfers : h.transfers o.target.slot code s = [])
    (hresult : ((h.runCallback o.target.slot code).exec s).1 ≠ .ok (.ok .async)) :
    (∃ result rc t, h.explained (Action.held ((h.runCallback o.target.slot code).exec s).1) = .ok result ∧
      verdict result = some rc ∧ h.applied s o.target.slot code = (.ok (), t) ∧ t.Owes made (o :: past) stuck ∧
      t.shared.journal.finalizes = s.shared.journal.finalizes ++ [(o.target.req, rc)]) ∨
    ∃ message, h.Stumbles (h.runCallback o.target.slot code) s message ∧
      (h.applied s o.target.slot code).2.Owes made past (o :: stuck) := by
  have hmade : h.transfers o.target.slot code s = [].map .offload := htransfers
  have hrun := hs.resumed.runCallback hs.anchorless hs.carries hmade
  unfold Leaves at hrun
  obtain ⟨hserved, hcarries, -⟩ := hrun
  have ht : ((h.runCallback o.target.slot code).exec s).2.Settling made past stuck o := hs.served hserved hcarries
  cases hx : h.explained (Action.held ((h.runCallback o.target.slot code).exec s).1) with
  | error stop =>
    obtain ⟨-, message, -, -, rfl⟩ := h.explained_eq_error hx
    have hstumbles := Host.stumbles_iff.mpr hx
    refine .inr ⟨message, hstumbles, ?_⟩
    rw [Host.applied_of_stumbles hstumbles]
    exact ht.stalled
  | ok result =>
    have hne : result ≠ .ok .async := fun heq => hresult (explained_eq_async (hx.trans (congrArg _ heq)))
    obtain ⟨rc, hrc⟩ := verdict_of_ne hne
    obtain ⟨v, r, htv, hr, hexec⟩ := hc.exec_apply ht.calm ht.resumed (by decide) hrc
    have hv : v.Settling made past stuck o := ht.served htv.served (ht.carries.of_unsent htv.unsent)
    refine .inl ⟨result, rc, _, rfl, hrc, (Host.exec_explain_bind_of_ok hx).trans hexec, ?_⟩
    rw [← hserved.finalizes, ← htv.served.finalizes]
    exact hv.ended hr rc

end State.Settling

/-! ### Runs -/

namespace Host.Offloading
variable {store : Queue.Store} {config : Config} {data : δ} {world : ω}

/-- A continuation starts to run if one is taken from the queue while its request waits. -/
theorem starts_next (hs : s.Owes made past stuck) {p : Parcel δ ω} {sh : Shared δ ω}
    (htake : s.shared.take = (some p, sh)) :
    ∃ role k code u, h.Starts s .next role k code u := by
  obtain ⟨o, rfl, ⟨-, r, hr, -, hserial, hp⟩, -⟩ := hs.taken htake
  exact ⟨_, _, _, _, .resumed htake hr hserial (.inr hp)⟩

/-- In every run what has been made is owed, but for the offloads whose continuations have run. -/
theorem owes (hs : State.open store config data world = .ok s) (hc : h.Calm) (hrun : h.Offloading s acts made) :
    ∃ past stuck, (h.after s acts).Owes made past stuck ∧ (∀ o ∈ past, h.Fulfils s acts o) ∧
      ∀ o ∈ stuck, h.Stalls s acts o := by
  induction hrun with
  | nil => exact ⟨[], [], .opened hs, by simp, by simp⟩
  | @handler acts _ a k code u o _ hallow hstart htransfers hresult ih =>
    obtain ⟨past, stuck, howes, hfulfils, hstalls⟩ := ih
    have hreach : Reachable h (h.after s acts) := (Reachable.opened hs).after acts
    obtain ⟨hspares, n, req, hhandling⟩ := hstart.spares hreach.course.toTold hallow
    refine ⟨past, stuck, ?_, fun o ho => (hfulfils o ho).cons a, fun o ho => (hstalls o ho).cons a⟩
    show (h.act (h.after s acts) a).Owes _ _ _
    rw [hstart.act_eq]
    exact ((howes.spares hspares).handled hhandling htransfers hresult :)
  | @continuation acts _ x k code u _ hstart htransfers hresult ih =>
    obtain ⟨past, stuck, howes, hfulfils, hstalls⟩ := ih
    have hact : h.after s (.next :: acts) = (h.applied u k code).2 := hstart.act_eq
    have hstart' := hstart
    cases hstart' with
    | @resumed _ target _ sh r htake =>
      obtain ⟨o, hparcel, -, hsettling⟩ := howes.taken htake
      cases hparcel
      have hcontinues : h.Continues s acts o _ := ⟨sh, htake, rfl, hstart⟩
      rcases hsettling.applied hc htransfers hresult with ⟨result, rc, t, hx, hrc, hexec, howes', hends⟩ |
        ⟨message, hstumbles, howes'⟩
      · have hafter : h.after s (.next :: acts) = t := hact.trans (congrArg Prod.snd hexec)
        rw [← hafter] at howes' hends
        refine ⟨o :: past, stuck, howes', fun o' ho' => ?_, fun o' ho' => (hstalls o' ho').cons _⟩
        rcases List.mem_cons.mp ho' with rfl | ho'
        · exact ⟨[], acts, _, result, rc, rfl, hcontinues, hx, hrc, finalizes_resuming htake _ ▸ hends⟩
        · exact (hfulfils o' ho').cons _
      · refine ⟨past, o :: stuck, hact ▸ howes', fun o' ho' => (hfulfils o' ho').cons _, fun o' ho' => ?_⟩
        rcases List.mem_cons.mp ho' with rfl | ho'
        · exact ⟨[], acts, _, message, rfl, hcontinues, hstumbles⟩
        · exact (hstalls o' ho').cons _
  | @idle acts _ a _ hallow hno ih =>
    obtain ⟨past, stuck, howes, hfulfils, hstalls⟩ := ih
    have hreach : Reachable h (h.after s acts) := (Reachable.opened hs).after acts
    refine ⟨past, stuck, howes.spares (spares_act hreach.awaits.handles hallow hno ?_),
      fun o ho => (hfulfils o ho).cons a, fun o ho => (hstalls o ho).cons a⟩
    rintro rfl
    rcases htake : (h.after s acts).shared.take with ⟨_ | p, sh⟩
    · rfl
    · obtain ⟨role, k, code, u, hstart⟩ := starts_next (h := h) howes htake
      exact absurd hstart (hno role k code u)

/-! ### Ticks in these runs -/

theorem of_append {later : List (Act δ ω)} (hrun : h.Offloading s (later ++ acts) made) :
    ∃ made, h.Offloading s acts made := by
  induction later generalizing made with
  | nil => exact ⟨made, hrun⟩
  | cons a later ih =>
    cases hrun with
    | handler hrun | continuation hrun | idle hrun => exact ih hrun

/-- A tick runs the continuation that it takes, and none panics where every text can be made. -/
theorem exec_runContained (hs : State.open store config data world = .ok s) (hc : h.Calm) (hd : h.Displays)
    (hrun : h.Offloading s (.next :: acts) made) {p : Parcel δ ω} {sh : Shared δ ω}
    (htake : (h.after s acts).shared.take = (some p, sh)) (tick : Action δ ω (List Nat)) :
    (h.runContained tick p).exec { h.after s acts with shared := sh } = (.ok (), h.after s (.next :: acts)) := by
  cases hrun with
  | handler _ _ hstart => cases hstart
  | idle hrun hallow hno =>
    obtain ⟨past, stuck, howes, -⟩ := hrun.owes hs hc
    obtain ⟨role, k, code, u, hstart⟩ := starts_next (h := h) howes htake
    exact absurd hstart (hno role k code u)
  | continuation hrun hstart htransfers hresult =>
    obtain ⟨past, stuck, howes, -⟩ := hrun.owes hs hc
    have hact : h.after s (.next :: acts) = (h.applied _ _ _).2 := hstart.act_eq
    cases hstart with
    | resumed htake' hr hserial hp =>
      rw [htake] at htake'
      cases htake'
      obtain ⟨o, hparcel, -, hsettling⟩ := howes.taken htake
      cases hparcel
      have happlied := (hsettling.applied hc htransfers hresult).resolve_right fun ⟨_, hstumbles, _⟩ =>
        hd.not_stumbles hstumbles
      obtain ⟨-, rc, t, -, -, hexec, -⟩ := happlied
      rw [hact, hexec]
      have hresume : (h.runParcel tick ⟨o.ticket, .continuation o.target (o.done (o.work o.threadName))⟩).exec
          { h.after s acts with shared := sh } = (.ok (), t) :=
        (exec_resume_of_some (s := { h.after s acts with shared := sh }) hr hserial hp).trans hexec
      unfold runContained
      rw [exec_tryCatch, hresume]

/-- Where nothing is left in the queue, further looks into it change nothing. -/
theorem after_replicate (hs : (h.after s acts).Owes made past stuck) {sh : Shared δ ω}
    (htake : (h.after s acts).shared.take = (none, sh)) (n : Nat) :
    h.after s (List.replicate n .next ++ acts) = h.after s acts := by
  induction n with
  | zero => rfl
  | succ n ih =>
    obtain ⟨waiting, lost, hsplits⟩ := hs.carries
    obtain ⟨-, rfl⟩ := Shared.take_eq_none hsplits.queue htake
    show h.advanced (h.after s (List.replicate n .next ++ acts)) = _
    rw [ih]
    unfold advanced
    rw [htake]

theorem exec_drain (hs : State.open store config data world = .ok s) (hc : h.Calm) (hd : h.Displays)
    (tick : Action δ ω (List Nat)) :
    ∀ (n : Nat) {acts : List (Act δ ω)}, h.Offloading s (List.replicate n .next ++ acts) made →
      ∃ tickets, (drain (h.runContained tick) n).exec (h.after s acts) =
        (.ok tickets, h.after s (List.replicate n .next ++ acts))
  | 0, _, _ => ⟨[], rfl⟩
  | n + 1, acts, hrun => by
    obtain ⟨_, hacts⟩ := hrun.of_append
    obtain ⟨past, stuck, howes, -⟩ := hacts.owes hs hc
    rcases htake : (h.after s acts).shared.take with ⟨_ | p, sh⟩
    · refine ⟨[], ?_⟩
      rw [after_replicate howes htake]
      obtain ⟨waiting, lost, hsplits⟩ := howes.carries
      obtain ⟨-, rfl⟩ := Shared.take_eq_none hsplits.queue htake
      unfold drain
      rw [exec_bind_of_ok (exec_shared _), htake]
      rfl
    · have happend : List.replicate (n + 1) Act.next ++ acts = List.replicate n .next ++ .next :: acts := by
        rw [List.replicate_succ', List.append_assoc]
        rfl
      rw [happend] at hrun ⊢
      obtain ⟨_, hnext⟩ := hrun.of_append
      obtain ⟨tickets, hdrain⟩ := exec_drain hs hc hd tick n hrun
      refine ⟨p.ticket :: tickets, ?_⟩
      unfold drain
      rw [exec_bind_of_ok (exec_shared _), htake]
      dsimp only
      rw [exec_bind_of_ok (hnext.exec_runContained hs hc hd htake tick), exec_bind_of_ok hdrain]
      rfl

/-- A tick is a run of this kind: it takes as many continuations as are in the queue when it begins, and reports lost
    pushes then. -/
theorem exec_tick (hs : State.open store config data world = .ok s) (hc : h.Calm) (hd : h.Displays)
    (hrun : h.Offloading s (List.replicate (h.after s acts).shared.queue.length .next ++ acts) made) :
    (h.tick.exec (h.after s acts)).2 =
      h.after s (.reported :: (List.replicate (h.after s acts).shared.queue.length .next ++ acts)) := by
  obtain ⟨tickets, hdrain⟩ := exec_drain hs hc hd (h.tickWithin 999) _ hrun
  show ((h.tickWithin (999 + 1)).exec (h.after s acts)).2 = (h.reportFailed.exec (h.after s _)).2
  unfold tickWithin
  rw [exec_bind_of_ok exec_get]
  dsimp only
  rw [exec_bind_of_ok hdrain, exec_bind]
  rcases h.reportFailed.exec (h.after s _) with ⟨_ | _, _⟩ <;> rfl

end Host.Offloading

/-! ### What becomes of them -/

/-- In a state in which no thread runs and nothing waits, what has been made is over, stuck or lost. -/
theorem State.Owes.length_eq (hs : s.Owes made past stuck) (hended : s.running = [])
    (hdrained : s.shared.take.1 = none) :
    past.length + stuck.length + s.shared.failed.toNat = made.length := by
  obtain ⟨waiting, lost, hsplits⟩ := hs.carries
  have hfailed : s.shared.failed.toNat = lost.length := by
    rw [hsplits.failed, UInt64.toNat_ofNat_of_lt' (hsplits.lost_lt hs.names)]
  rcases htake : s.shared.take with ⟨taken, sh⟩
  obtain rfl : taken = none := (congrArg Prod.fst htake).symm.trans hdrained
  obtain ⟨hwaiting, -⟩ := Shared.take_eq_none hsplits.queue htake
  obtain rfl := List.map_eq_nil_iff.mp hwaiting
  have hlength := hsplits.perm.length_eq
  simp only [hended, List.nil_append, List.length_append] at hlength
  omega

/-- What has become of the request of an offload, with that of its continuation. -/
theorem State.Owes.fate (hs : s.Owes made past stuck) (ho : o ∈ made) :
    let ended := s.shared.journal.finalizes.map Prod.fst
    (o ∈ past ∧ ended.count o.target.req = 1 ∧ s.Stands o.target .finalized) ∨
      (o ∈ stuck ∧ o.target.req ∉ ended ∧ s.Stands o.target .resumed) ∨
      (o.target.req ∉ ended ∧ s.Stands o.target .suspended) := by
  intro ended
  have hends : ended = (past.map fun o => o.target.req).reverse := hs.ends
  have hsubset := hs.carries.subset
  have hnames : (past.map fun o => o.target.req).Nodup :=
    (hs.carries.nodup hs.names).sublist ((List.sublist_append_right stuck past).map _)
  -- An offload that is not over shares its request with none that is.
  have hopen : o ∉ past → o.target.req ∉ ended := fun hno hm => by
    rw [hends, List.mem_reverse] at hm
    obtain ⟨o', ho', hreq⟩ := List.mem_map.mp hm
    exact hno (List.inj_on_of_nodup_map hs.names (hsubset (List.mem_append_right _ ho')) ho hreq ▸ ho')
  by_cases hpast : o ∈ past
  · have hmem : o.target.req ∈ ended := hends ▸ List.mem_reverse.mpr (List.mem_map_of_mem hpast)
    exact .inl ⟨hpast, List.count_eq_one_of_mem (hends ▸ List.nodup_reverse.mpr hnames) hmem, hs.closed o hpast⟩
  · by_cases hstuck : o ∈ stuck
    · exact .inr (.inl ⟨hstuck, hopen hpast, hs.left o hstuck⟩)
    · refine .inr (.inr ⟨hopen hpast, (hs.waits o ho).resolve_left fun hm => ?_⟩)
      exact (List.mem_append.mp hm).elim hstuck hpast

/-! ### A handler that makes one offload -/

namespace Callback

/-- Code that ends its request, as the work of an offload has come to a value or has panicked. -/
def ending (result : Except String String) : Callback δ ω := .finish (.ok (if result.toBool then .ok else .status 502))

/-- Code that makes an offload and returns what that answers. -/
def offloading (work : String → Except String String) : Callback δ ω :=
  .offload work ending fun answer => .finish (answer.mapError Fault.ofError)

end Callback

namespace Host.Offloading
variable {store : Queue.Store} {config : Config} {data : δ} {world : ω} {m : ReqId}
  {work : String → Except String String}

theorem transfers_offloading (ho : h.offload? s k work Callback.ending = some o) :
    h.transfers k (.offloading work) s = [.offload o] ∧
      ((h.runCallback k (.offloading work)).exec s).1 = .ok (.ok .async) := by
  have hexec := exec_offload_of_some ho
  constructor
  · unfold Callback.offloading transfers
    rw [ho, follow, hexec]
    rfl
  · show ((h.offload k work _ >>= _ : Action δ ω _).exec s).1 = _
    rw [exec_bind_of_ok hexec]
    rfl

theorem routed (hs : State.open store config data world = .ok s)
    (hrun : (Host.prompt m (.offloading work)).Offloading s acts made)
    (hn : ((Host.prompt m (.offloading work)).after s acts).worker.slots[req]? = none) :
    ∃ o, o.done = Callback.ending ∧
      (Host.prompt m (.offloading work)).Offloading s (.hook (.contentPhase req) :: acts) (o :: made) := by
  have hcode : Option.bind (some 1) (Host.prompt (δ := δ) (ω := ω) m (.offloading work)).routes.handler? =
      some (.offloading work) := Std.ExtTreeMap.getElem?_insert_self
  have hstart : (Host.prompt m (.offloading work)).Starts _ (.hook (.contentPhase req)) .handler _ _ _ :=
    .routed rfl hcode (exec_unregister_of_none hn) rfl
  have hreach : Reachable (Host.prompt m (.offloading work)) _ := (Reachable.opened hs).after acts
  have hallow : State.Allows _ (.hook (.contentPhase req)) := hn
  obtain ⟨-, n, req', -, r, hr, -, -, hp⟩ := hstart.spares hreach.course.toTold hallow
  obtain ⟨o, ho, hdone⟩ : ∃ o, (Host.prompt m (.offloading work)).offload? _ _ work Callback.ending = some o ∧
      o.done = Callback.ending := by
    refine ⟨_, (congrArg (Option.bind · _) hr).trans (if_neg ?_), rfl⟩
    rw [hp]
    decide
  obtain ⟨htransfers, hresult⟩ := transfers_offloading ho
  exact ⟨o, hdone, .handler hrun hallow hstart htransfers hresult⟩

theorem next (hs : State.open store config data world = .ok s) (hc : h.Calm) (hrun : h.Offloading s acts made)
    (hdone : ∀ o ∈ made, o.done = Callback.ending) : h.Offloading s (.next :: acts) made := by
  rcases htake : (h.after s acts).shared.take with ⟨_ | p, sh⟩
  · refine .idle hrun trivial fun role k code u hstart => ?_
    cases hstart with
    | resumed htake' =>
      rw [htake] at htake'
      cases htake'
  · obtain ⟨past, stuck, howes, -⟩ := hrun.owes hs hc
    obtain ⟨o, rfl, ⟨-, r, hr, -, hserial, hp⟩, hsettling⟩ := howes.taken htake
    have hcode := hdone o (hsettling.carries.subset List.mem_cons_self)
    refine .continuation hrun (.resumed htake hr hserial (.inr hp)) ?_ ?_
    · rw [hcode]
      rfl
    · rw [hcode]
      unfold Callback.ending
      show (Except.ok _ : Except Stop (Except Fault Outcome)) ≠ _
      split <;> simp

theorem awaitOffload (hrun : h.Offloading s acts made) (index : Nat) :
    h.Offloading s (.awaitOffload index :: acts) made :=
  .idle hrun trivial fun _ _ _ _ hstart => by cases hstart

theorem reported (hrun : h.Offloading s acts made) : h.Offloading s (.reported :: acts) made :=
  .idle hrun trivial fun _ _ _ _ hstart => by cases hstart

end Host.Offloading

end EngineBridge
