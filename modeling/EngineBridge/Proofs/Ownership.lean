import EngineBridge.Proofs.Names
import EngineBridge.Proofs.Resumption

/-! Who tells the engine of the end of a request. Where a request is answered with a status, the engine ends it
    itself, and the bridge leaves it alone from then on, unless an open registration of the request is left
    from before. -/

namespace EngineBridge
open EngineBridge.Action Registry
variable {δ ω : Type} {h : Host δ ω} {a b : List Nat × State δ ω} {X : List Nat} {s t u : State δ ω} {k n : Nat}
  {r : Registration} {req : ReqId}

/-! ### Requests that are answered with a status -/

/-- The engine, asked about a request in a state, places it where there is a handler. -/
def Host.Places (h : Host δ ω) (s : State δ ω) (req : ReqId) : Prop :=
  ∃ location, (h.engine (.location req) s.shared.world).1 = .ok location ∧
    (location.bind h.routes.handler?).isSome

/-- The state without the registration to which the name of a request leads. -/
def Host.cleared (s : State δ ω) (req : ReqId) : State δ ω := ((unregister req).exec s).2

theorem Host.get?_cleared (hs : Course s) (req : ReqId) (k : Nat) :
    (unregister req).exec s = (.ok (), cleared s req) ∧ (cleared s req).worker.requests.get? k =
      if s.worker.slots[req]? = some k then none else s.worker.requests.get? k := by
  cases hslot : s.worker.slots[req]? with
  | none =>
    have hexec := exec_unregister_of_none (s := s) hslot
    unfold cleared
    rw [hexec]
    exact ⟨rfl, rfl⟩
  | some k' =>
    obtain ⟨r, hr, -⟩ := hs.named hslot
    have hexec := exec_unregister_of_some hslot hr
    unfold cleared
    rw [hexec]
    refine ⟨rfl, (get?_removed req r.serial k).trans ?_⟩
    by_cases hk : k = k'
    · rw [if_pos hk, if_pos (congrArg some hk.symm)]
    · rw [if_neg hk, if_neg fun heq => hk (Option.some.inj heq).symm]

/-- Of the registrations that are there when a body cannot be read all that are open remain. -/
theorem Host.startBody_status {slot : Nat} {code : UInt16} (hr : s.worker.requests.get? slot = some r)
    (he : (h.startBody slot req).exec s = (.ok (.status code), t)) {k : Nat} {r' : Registration}
    (hr' : t.worker.requests.get? k = some r') (ho : r'.phase ≠ .finalized) :
    k ≠ slot ∧ s.worker.requests.get? k = some r' := by
  unfold startBody at he
  rw [exec_bind_of_ok (exec_registration_of_some hr)] at he
  cases hreply : (h.engine (.readBody req) s.shared.world).1 with
  | error message =>
    rw [exec_bind_of_error (h.exec_call_of_error hreply)] at he
    cases he
  | ok x =>
    rw [exec_bind_of_ok (h.exec_call_of_ok hreply)] at he
    cases x with
    | complete =>
      obtain ⟨_, _, -, hend⟩ := exec_bind_eq_ok he
      cases hend
    | pending => cases he
    | failed rc =>
      let u := moved (h.asked (some r.serial) (.readBody req) s) slot r.serial .finalized
      have hsetPhase : (setPhase slot .finalized).exec (h.asked (some r.serial) (.readBody req) s) = (.ok (), u) :=
        exec_setPhase hr
      have hu : u.worker.requests.get? k = some r' := by
        obtain ⟨_, v, hset, hrest⟩ := exec_bind_eq_ok he
        rw [hsetPhase] at hset
        obtain rfl : u = v := (Prod.mk.inj hset).2
        split at hrest
        · obtain rfl : u = t := (Prod.mk.inj hrest).2
          exact hr'
        · obtain ⟨_, w, hlog, hend⟩ := exec_bind_eq_ok hrest
          cases hend
          have hst : Spoken none u t := (Spoken.log _ _).exec hlog
          rw [← hst.others k nofun]
          exact hr'
      rw [get?_moved] at hu
      split at hu
      · obtain ⟨_, -, rfl⟩ := Option.map_eq_some_iff.mp hu
        exact absurd rfl ho
      · next hne => exact ⟨hne, hu⟩

/-- Where there is no handler for a request, all registrations remain; else those remain to which the name of the
    request does not lead. -/
theorem Host.contentPhase_status {code : UInt16} (hs : Course s)
    (he : (h.contentPhase req).exec s = (.ok (.status code), t)) :
    (¬h.Places s req → ∀ k, t.worker.requests.get? k = s.worker.requests.get? k) ∧
    (h.Places s req → ∀ {k r}, t.worker.requests.get? k = some r → r.phase ≠ .finalized →
      s.worker.requests.get? k = some r ∧ s.worker.slots[req]? ≠ some k) := by
  unfold contentPhase at he
  cases hreply : (h.engine (.location req) s.shared.world).1 with
  | error message =>
    rw [exec_bind_of_error (h.exec_call_of_error hreply)] at he
    cases he
  | ok location =>
    rw [exec_bind_of_ok (h.exec_call_of_ok hreply)] at he
    have hsu : Spoken none s (h.asked none (.location req) s) := .asked_none rfl
    split at he
    · next hcode =>
      obtain ⟨_, v, hlog, hend⟩ := exec_bind_eq_ok he
      cases hend
      have hut : Spoken none (h.asked none (.location req) s) t := (Spoken.log _ _).exec hlog
      refine ⟨fun _ k => (hsu.trans hut).others k nofun, fun hplaces => ?_⟩
      obtain ⟨location', hreply', hcode'⟩ := hplaces
      rw [hreply] at hreply'
      cases hreply'
      rw [Option.isNone_iff_eq_none.mp hcode] at hcode'
      cases hcode'
    · next hcode =>
      rw [Option.isNone_iff_eq_none, ← ne_eq, Option.ne_none_iff_isSome] at hcode
      refine ⟨fun hplaces => absurd ⟨location, hreply, hcode⟩ hplaces, fun _ k r' hr' ho => ?_⟩
      obtain ⟨hexec, hget⟩ := get?_cleared (hs.served hsu.served) req k
      rw [exec_bind_of_ok hexec, exec_bind_of_ok (exec_register req _ _ _)] at he
      obtain ⟨hne, hr'⟩ := startBody_status get?_registered_self he hr' ho
      rw [get?_registered, if_neg hne, hget] at hr'
      split at hr'
      · cases hr'
      · next hslot => exact ⟨hr', hslot⟩

/-! ### Ends and starts after that -/

/-- A registration that the engine is told the end of has just come to it. -/
theorem Deed.tells_end (hab : Deed h a b) : ∃ es : Journal, b.2.shared.journal = es ++ a.2.shared.journal ∧
    ∀ {n req rc v}, .called (some n) (.finalize req rc) v ∈ es → .moved n .finalized ∈ es := by
  cases hab with
  | service hab =>
    obtain ⟨es, hes, hm⟩ := hab.served.entries
    refine ⟨es, hes, fun he => ?_⟩
    obtain ⟨_, -, -, -, hq | ⟨hq, -⟩⟩ := hm _ he <;> cases hq
  | ended =>
    refine ⟨[.called _ _ _, .moved _ _], rfl, fun he => ?_⟩
    rcases List.mem_cons.mp he with heq | he
    · cases heq
      exact List.mem_cons_of_mem _ List.mem_cons_self
    · cases List.mem_singleton.mp he
  | moved => exact ⟨[.moved _ _], rfl, by simp⟩
  | read => exact ⟨[.called _ _ _], rfl, by simp⟩
  | unread => exact ⟨[.moved _ _, .called _ _ _], rfl, by simp⟩
  | registered => exact ⟨[.registered _ _ _ _], rfl, by simp⟩
  | removed => exact ⟨[.removed _], rfl, by simp⟩
  | started => exact ⟨[.started _ _], rfl, by simp⟩
  | begun => exact ⟨[.started _ _, .ran _], rfl, by simp⟩
  | ran => exact ⟨[.ran _], rfl, by simp⟩
  | taken htake =>
    obtain ⟨queue, -, rfl⟩ := Shared.pop_of_take htake
    exact ⟨[.taken _], rfl, by simp⟩
  | looked htake =>
    obtain ⟨queue, -, rfl⟩ := Shared.pop_of_take_none htake
    exact ⟨[], rfl, by simp⟩
  | completed => exact ⟨[.completed _], rfl, by simp⟩
  | uncounted | untargeted | filtered | seen => exact ⟨[], rfl, by simp⟩

theorem Deeds.tells_end (hab : Relation.ReflTransGen (Deed h) a b) :
    ∃ es : Journal, b.2.shared.journal = es ++ a.2.shared.journal ∧
      ∀ {n req rc v}, .called (some n) (.finalize req rc) v ∈ es → .moved n .finalized ∈ es := by
  induction hab with
  | refl => exact ⟨[], rfl, by simp⟩
  | tail _ hbc ih =>
    obtain ⟨es, hes, hends⟩ := ih
    obtain ⟨es', hes', hends'⟩ := hbc.tells_end
    refine ⟨es' ++ es, by rw [hes', hes, List.append_assoc], fun he => ?_⟩
    rcases List.mem_append.mp he with he | he
    · exact List.mem_append_left _ (hends' he)
    · exact List.mem_append_right _ (hends he)

/-- Where no registration of a request is open, none of them is open in the journal. -/
theorem Course.over_of_closed (hs : Course s)
    (hclosed : ∀ {k r}, s.worker.requests.get? k = some r → r.id = req → r.phase = .finalized) {slot : Nat} {p : Phase}
    (hn : .registered n req slot p ∈ s.shared.journal) : s.shared.journal.Over n := by
  refine ⟨⟨req, slot, p, hn⟩, fun ⟨q, hq, hne⟩ => ?_⟩
  obtain ⟨k, r, hr, rfl⟩ := hs.held hq
  obtain ⟨p', hp'⟩ := hs.entered hr
  obtain ⟨hid, -⟩ := hs.lawful.registered_inj hp' hn
  have hphase := hs.phase hr
  rw [hclosed hr hid, hq] at hphase
  exact hne (Option.some.inj hphase)

/-- Where no registration of a request is open, nothing starts against it, and the engine is told no end of it,
    until it is registered again. -/
theorem Course.left_alone (hs : Course s)
    (hclosed : ∀ {k r}, s.worker.requests.get? k = some r → r.id = req → r.phase = .finalized) {later : Journal}
    (hsu : Deeds h ([], s) X u) (hj : u.shared.journal = later ++ s.shared.journal) (hl : ¬later.Registers req) :
    (∀ {role n slot p}, .registered n req slot p ∈ u.shared.journal → .started role n ∉ later) ∧
      ∀ {m rc v}, .called m (.finalize req rc) v ∉ later := by
  have hlawful := (Deeds.course (a := ([], s)) hs hsu).lawful
  -- Every registration of the request was over before.
  have still : ∀ {n slot p}, .registered n req slot p ∈ u.shared.journal → ∀ e ∈ later, ¬Journal.Stirs n e := by
    intro n slot p hn
    rw [hj] at hn hlawful
    have hn := (List.mem_append.mp hn).resolve_left fun hm => hl ⟨n, slot, p, hm⟩
    exact (hs.over_of_closed hclosed hn).not_stirs hlawful
  refine ⟨fun hn he => still hn _ he rfl, fun {m rc v} he => ?_⟩
  have hm : .called m (.finalize req rc) v ∈ u.shared.journal := hj ▸ List.mem_append_left _ he
  cases m with
  | none => exact hlawful.not_mem_finalize_none hm
  | some n =>
    obtain ⟨slot, p, hn⟩ := hlawful.registered_of_finalize hm
    obtain ⟨es, hes, hends⟩ := Deeds.tells_end hsu
    obtain rfl : es = later := List.append_cancel_right (hes.symm.trans hj)
    exact still hn _ (hends he) rfl

/-- A continuation is run against a registration that can be resumed. -/
theorem Course.resumes (hr : s.worker.requests.get? k = some r) (hp : r.Resumable) (x : Nat) (code : Callback δ ω) :
    (h.resume ⟨k, r.serial, r.id⟩ x code).Leaves
      (fun u => .started (.continuation x) r.serial ∈ u.shared.journal) s := by
  let target : Resumer := ⟨k, r.serial, r.id⟩
  have hr' : s.worker.requests.get? target.slot = some r := hr
  exact (Deeds.resumed (h := h) hr' (rfl : r.serial = target.serial) hp x code).subset List.mem_cons_self

/-- A request that is answered with a status, which the engine ends itself. If none of its registrations is open
    then, no code starts against it any more, and the engine is told no end of it, until it is registered again.
    All that is open is left from before: where there was no handler for the request, everything is left; else
    what its name did not lead to. And against what is left and can be resumed, continuations are still run. -/
theorem Reachable.ownership_law (hs : Reachable h s) {code : UInt16}
    (he : (h.contentPhase req).exec s = (.ok (.status code), t)) :
    ((∀ {k r}, t.worker.requests.get? k = some r → r.id = req → r.phase = .finalized) →
      ∀ {X u later}, Deeds h ([], t) X u → u.shared.journal = later ++ t.shared.journal → ¬later.Registers req →
        (∀ {role n slot p}, .registered n req slot p ∈ u.shared.journal → .started role n ∉ later) ∧
        ∀ {m rc v}, .called m (.finalize req rc) v ∉ later) ∧
    (¬h.Places s req → ∀ k, t.worker.requests.get? k = s.worker.requests.get? k) ∧
    (h.Places s req → ∀ {k r}, t.worker.requests.get? k = some r → r.phase ≠ .finalized →
      s.worker.requests.get? k = some r ∧ s.worker.slots[req]? ≠ some k) ∧
    ∀ {k r}, t.worker.requests.get? k = some r → r.Resumable → ∀ x code,
      (h.resume ⟨k, r.serial, r.id⟩ x code).Leaves
        (fun u => .started (.continuation x) r.serial ∈ u.shared.journal) t := by
  obtain ⟨hunplaced, hplaced⟩ := Host.contentPhase_status hs.course he
  have ht : Reachable h t := by
    have hst := Step.hook (h := h) (s := s) (.contentPhase req)
    have hexec : (h.perform (throw .overrun) (.contentPhase req)).exec s = (.ok (.status code), t) := he
    rw [hexec] at hst
    exact hs.step hst
  exact ⟨fun hclosed => ht.course.left_alone hclosed, hunplaced, hplaced, Course.resumes⟩

/-- An engine that places requests until the world is told otherwise. -/
def Engine.fickle (made : ReqId) : Engine δ Bool := fun
  | .location _, true => (.ok none, true)
  | q, w => Engine.prompt made q w

/-- A request that waits for a continuation comes again, where there is no handler for it any more. -/
theorem ownership_law_when_left :
    let h : Host Unit Bool := .plain (Engine.fickle ⟨9⟩) ⟨(∅ : Std.ExtTreeMap UInt64 (Callback Unit Bool)).insert 1
      (.world (fun _ => true) fun _ => .finish (.ok .async)), ∅⟩ id
    ∃ s t, Reachable h s ∧ (h.contentPhase ⟨1⟩).exec s = (.ok (.status 500), t) ∧ ∀ x code,
      (h.resume ⟨0, 1, ⟨1⟩⟩ x code).Leaves (fun u => .started (.continuation x) 1 ∈ u.shared.journal) t := by
  intro h
  let r : Registration := { id := ⟨1⟩, serial := 1, phase := .suspended, location := some 1 }
  have hopened : Reachable h ⟨.new {} (), .new .array {} false⟩ :=
    .opened (rfl : State.open .array {} () false = .ok ⟨.new {} (), .new .array {} false⟩)
  obtain ⟨s, hs, hr, hplaces, hanswer⟩ : ∃ s, Reachable h s ∧ s.worker.requests.get? 0 = some r ∧
      (h.engine (.location ⟨1⟩) s.shared.world).1 = .ok none ∧
      ((h.contentPhase ⟨1⟩).exec s).1 = .ok (.status 500) :=
    ⟨((h.run (.hook (.contentPhase ⟨1⟩) fun _ => .done)).exec ⟨.new {} (), .new .array {} false⟩).2, hopened.run _,
      by decide +kernel, by decide +kernel, by decide +kernel⟩
  have he : (h.contentPhase ⟨1⟩).exec s = (.ok (.status 500), ((h.contentPhase ⟨1⟩).exec s).2) := by
    rw [← hanswer]
  obtain ⟨-, hleft, -, hresumes⟩ := Reachable.ownership_law hs he
  have hn : ¬h.Places s ⟨1⟩ := by
    rintro ⟨location, hlocation, hcode⟩
    rw [hplaces] at hlocation
    cases hlocation
    cases hcode
  have hleft : ((h.contentPhase ⟨1⟩).exec s).2.worker.requests.get? 0 = some r := (hleft hn 0).trans hr
  have hresumed := hresumes hleft (.inr rfl)
  exact ⟨s, _, hs, he, hresumed⟩

end EngineBridge
