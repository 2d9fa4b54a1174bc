import EngineBridge.Proofs.Completion
import EngineBridge.Proofs.Tokens

/-! A subrequest keeps the names of its root and of its main request, not their registrations. So if a name
    has been registered again when the child completes, the completion goes to the new registration: the
    callback runs against it, and it is ended, though the subrequest was issued for another one. -/

namespace EngineBridge
open EngineBridge.Action Registry
variable {δ ω : Type} {h : Host δ ω} {s s₀ t u : State δ ω} {k : Nat} {r : Registration}

/-! ### Completions, whether they end or panic -/

/-- From one state to another code has been started like this, and each end that the engine has been told
    of is that of the registration to which the request's name leads. -/
structure Aimed (s : State δ ω) (starts : List (Role × Nat)) (t : State δ ω) : Prop where
  tells : ∃ ends runs, Tells s t ends starts runs
  course : Course t

namespace Aimed
variable {starts starts' : List (Role × Nat)}

theorem trans (h₁ : Aimed s starts t) (h₂ : Aimed t starts' u) : Aimed s (starts ++ starts') u := by
  obtain ⟨ends, runs, hst⟩ := h₁.tells
  obtain ⟨ends', runs', htu⟩ := h₂.tells
  exact ⟨⟨_, _, hst.trans htu⟩, h₂.course⟩

theorem on (hs : Aimed s₀ starts s) (hst : Aimed s [] t) : Aimed s₀ starts t := by
  simpa using hs.trans hst

theorem served {slot : Option Nat} (hs : Aimed s₀ starts s) (hst : Served slot s t) : Aimed s₀ starts t :=
  hs.on ⟨⟨[], [], .of_served hst⟩, hs.course.served hst⟩

theorem keeps : Keeps h (Aimed s₀ starts) where
  log notice req hs :=
    (Spoken.log (h := h) notice req).mono fun _ (hst : Spoken none _ _) => hs.served hst.served
  ended rc hk hr ho hs :=
    have hst := Ends.ended hs.course hk hr ho rc
    hs.on ⟨⟨_, _, hst.tells⟩, hst.course hs.course⟩

theorem suspended (hs : Aimed s₀ starts s) (hr : s.worker.requests.get? k = some r) (ho : r.phase ≠ .finalized) :
    Aimed s₀ starts (moved s k r.serial .suspended) :=
  hs.on ⟨⟨[], [], .of_entries [_] rfl rfl (serial?_moved r.serial)⟩, hs.course.moved hr ho⟩

theorem callBack (hs : Course s) {p : Pending δ ω} (hr : s.worker.requests.get? k = some r)
    (ho : r.phase ≠ .finalized) (completion : Completion) :
    (h.callBack p k completion).Leaves (Aimed s [(.callback p.ticket, r.serial)]) s := by
  obtain ⟨r', hr', hserial, -⟩ := Deeds.get?_waited hr ho
  have hu : Aimed s [(.callback p.ticket, r.serial)] (Host.calling s p k r) :=
    ⟨⟨[], _, Host.calling_tells p⟩,
      Deeds.course (a := ([p.ticket], s)) hs (Host.calling_deeds (h := h) hr ho p)⟩
  have hreg : (registration k).exec (Host.noted (Deeds.waited s k r) (.ran p.ticket)) = (.ok r', _) :=
    exec_registration_of_some hr'
  refine .bind_of_ok (Deeds.exec_resumeWaiting hr) (.bind_of_ok (exec_record _) (.bind_of_ok hreg ?_))
  rw [hserial]
  refine .bind_of_ok (exec_record _) (Leaves.bind ?_ fun result _ _ hv => ?_)
  · exact h.leaves_guarded ((Served.runCallback (p.done completion)).mono fun _ => hu.served)
  · exact (keeps.settles p).settle hv (fun hr hp => hv.suspended hr (hp ▸ by decide)) _ result

/-- A completion starts its callback just if its caller is open. -/
theorem complete (hs : Course s) (p : Pending δ ω) (completion : Completion) :
    (h.complete p completion).Leaves (fun t => ∃ starts, Aimed s starts t ∧ ∀ m,
      (.callback p.ticket, m) ∈ starts ↔ s.worker.isOpen p.caller = true ∧ s.worker.serial? p.caller = some m) s := by
  cases ho : s.worker.isOpen p.caller with
  | false =>
    have hslot : (openSlot? p.caller).exec s = (.ok none, s) :=
      exec_openSlot?_of_not_open ho fun _ => hs.occupied
    have hs' : Aimed s [] s := ⟨⟨[], [], .of_served (Served.refl s : Served none s s)⟩, hs⟩
    have ht : Aimed s [] (Host.noted s (.destroyed p.ticket)) :=
      hs'.served (Service.destroyed : Service h none ([p.ticket], s) ([], _)).served
    exact .bind_of_ok hslot (((keeps.settles p).abandon ht).mono fun t ht => ⟨[], ht, by simp⟩)
  | true =>
    obtain ⟨k, r, hk, hr, hopen⟩ := isOpen_iff.mp ho
    have hslot : (openSlot? p.caller).exec s = (.ok (some k), s) := exec_openSlot?_of_open hk hr hopen
    refine .bind_of_ok hslot ((callBack hs hr hopen completion).mono fun t ht => ⟨_, ht, fun m => ?_⟩)
    simp [serial?_of_some hk hr, eq_comm]

theorem subrequestDone (hs : Course s) {token : SubToken} {p : Pending δ ω} {child : ReqId}
    (hp : s.worker.subrequests.get? token.slot = some p) (hserial : p.serial = token.serial)
    (hchild : p.child = some child) (completion : Completion) :
    (h.subrequestDone token completion).Leaves (fun t => ∃ starts ends runs, Tells s t ends starts runs ∧ ∀ m,
      (.callback p.ticket, m) ∈ starts ↔ s.worker.isOpen p.caller = true ∧ s.worker.serial? p.caller = some m) s := by
  have hu : Course (Host.arrived s token child) :=
    Deeds.course (h := h) (a := ([], s)) hs
      (.tail (.single (.completed hp hserial)) (.untargeted child) : Deeds h ([], s) _ _)
  have hsu : Tells s (Host.arrived s token child) [] [] [] :=
    .of_entries [.completed token] rfl rfl fun _ => rfl
  refine .of_exec (Host.exec_subrequestDone_of_child hp hserial hchild completion) ?_
  obtain ⟨starts, ⟨⟨ends, runs, htells⟩, -⟩, hm⟩ := complete (h := h) hu p completion
  have htells := hsu.trans htells
  exact ⟨starts, ends, runs, ⟨htells.entries, htells.serials⟩, hm⟩

end Aimed

/-- A subrequest was issued when a request's name led to a given registration. If its completion starts the
    callback against that request, and if it ends that request, then another registration than the given
    one is concerned just when the request has been registered again since. -/
theorem Reachable.completion_goes_by_name (hs : Reachable h s) {token : SubToken} {p : Pending δ ω}
    (hp : s.worker.subrequests.get? token.slot = some p) (hserial : p.serial = token.serial) {child : ReqId}
    {later earlier : Journal} (hj : s.shared.journal = later ++ .issued token child :: earlier) {req : ReqId} {n : Nat}
    (hn : earlier.lead? req = some n) (completion : Completion) :
    ∃ es, ((h.subrequestDone token completion).exec s).2.shared.journal = es ++ s.shared.journal ∧
      (p.caller = req → ((∃ m, m ≠ n ∧ .started (.callback p.ticket) m ∈ es) ↔
        s.worker.isOpen req = true ∧ later.Registers req)) ∧
      ((∃ m rc u, m ≠ n ∧ .called (some m) (.finalize req rc) u ∈ es) ↔
        (∃ rc, (req, rc) ∈ Journal.finalizes es) ∧ later.Registers req) := by
  have hissued : .issued token child ∈ s.shared.journal := hj ▸ List.mem_append_right _ List.mem_cons_self
  obtain ⟨-, hchild⟩ := hs.tokened.child hissued hp hserial
  have hlawful := hs.course.lawful
  rw [hj] at hlawful
  -- The registration that the name leads to now is the given one, unless the request was registered again.
  have again : ∀ {m}, s.worker.serial? req = some m → (m ≠ n ↔ later.Registers req) := by
    intro m hm
    rw [hs.led, hj] at hm
    have hn : Journal.lead? (.issued token child :: earlier) req = some n := hn
    exact hlawful.lead?_ne_iff hn hm
  obtain ⟨starts, ends, runs, htells, hcalls⟩ :=
    (Aimed.subrequestDone (h := h) hs.course hp hserial hchild completion).exec rfl
  obtain ⟨es, hes, -, rfl, -, hends⟩ := htells.entries
  refine ⟨es, hes, fun hcaller => ?_, ?_⟩
  · subst hcaller
    constructor
    · rintro ⟨m, hne, hm⟩
      obtain ⟨ho, hm⟩ := (hcalls m).mp (Journal.mem_starts.mpr hm)
      exact ⟨ho, (again hm).mp hne⟩
    · rintro ⟨ho, hl⟩
      obtain ⟨k, r, hk, hr, -⟩ := isOpen_iff.mp ho
      have hm := serial?_of_some hk hr
      exact ⟨r.serial, (again hm).mpr hl, Journal.mem_starts.mp ((hcalls _).mpr ⟨ho, hm⟩)⟩
  · constructor
    · rintro ⟨m, rc, u, hne, hm⟩
      exact ⟨⟨rc, Journal.mem_finalizes.mpr ⟨_, u, hm⟩⟩, (again (hends hm).symm).mp hne⟩
    · rintro ⟨⟨rc, hrc⟩, hl⟩
      obtain ⟨n', u, he⟩ := Journal.mem_finalizes.mp hrc
      cases hn' : n' with
      | some m =>
        subst hn'
        exact ⟨m, rc, u, (again (hends he).symm).mpr hl, he⟩
      | none =>
        subst hn'
        have ht := (hs.step (.hook (.subrequestDone token completion))).course.lawful
        exact absurd (hes ▸ List.mem_append_left _ he) ht.not_mem_finalize_none

/-- A request that has been released and registered again while it waited for a subrequest. -/
theorem completion_goes_by_name_when_reused :
    let h : Host Unit Unit := .prompt ⟨9⟩ (.waiting fun _ => .finish (.ok .ok))
    ∃ s es p, Reachable h s ∧ s.worker.subrequests.get? 0 = some p ∧ p.caller = ⟨1⟩ ∧
      ((h.subrequestDone ⟨0, 2⟩ ⟨⟨9⟩, 0, 200, []⟩).exec s).2.shared.journal = es ++ s.shared.journal ∧
      ∃ m, m ≠ 1 ∧ .started (.callback p.ticket) m ∈ es := by
  intro h
  let token : SubToken := ⟨0, 2⟩
  -- The first registration is removed after the subrequest has been issued, then the second one is made.
  obtain ⟨s, hs, hopen, hmap, hj, hn, hm⟩ : ∃ s, Reachable h s ∧ s.worker.isOpen ⟨1⟩ = true ∧
      (s.worker.subrequests.get? 0).map (fun p => (p.serial, p.caller)) = some (2, ⟨1⟩) ∧
      s.shared.journal = s.shared.journal.take 12 ++ .issued token ⟨9⟩ :: s.shared.journal.drop 13 ∧
      Journal.lead? (s.shared.journal.drop 13) ⟨1⟩ = some 1 ∧
      .registered 3 ⟨1⟩ 0 .received ∈ s.shared.journal.take 12 :=
    ⟨((h.run (.hook (.contentPhase ⟨1⟩) fun _ => .hook (.released ⟨1⟩) fun _ =>
        .hook (.contentPhase ⟨1⟩) fun _ => .done)).exec State.fresh).2, Reachable.fresh.run _,
      by decide +kernel, by decide +kernel, by decide +kernel, by decide +kernel, by decide +kernel⟩
  obtain ⟨p, hp, hfields⟩ := Option.map_eq_some_iff.mp hmap
  simp only [Prod.mk.injEq] at hfields
  obtain ⟨hserial, hcaller⟩ := hfields
  have hp' : s.worker.subrequests.get? token.slot = some p := hp
  obtain ⟨es, hes, hcall, -⟩ :=
    Reachable.completion_goes_by_name hs hp' hserial hj hn ⟨⟨9⟩, 0, 200, []⟩
  exact ⟨s, es, p, hs, hp, hcaller, hes, (hcall hcaller).mpr ⟨hopen, 3, 0, .received, hm⟩⟩

end EngineBridge
