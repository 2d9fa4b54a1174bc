import EngineBridge.Proofs.Reach
import EngineBridge.Proofs.Responding

/-! The protocol of responses: in every moment of every run, what the engine has heard of a registration is
    the response to one request, from its status to its end. -/

namespace EngineBridge
open EngineBridge.Action Registry Response
variable {δ ω : Type} {h : Host δ ω} {s t : State δ ω} {a b : List Nat × State δ ω} {X : List Nat} {k n : Nat}
  {r : Registration}

/-! ### Calls of a response -/

theorem Call.not_responds_of_asks {c : Call} (hc : c.asks) : ¬c.responds := by
  cases c <;> simp [Call.asks, Call.responds] at hc ⊢

theorem Call.not_responds_of_branches {c : Call} (hc : c.branches) : ¬c.responds := by
  cases c <;> simp [Call.branches, Call.responds] at hc ⊢

namespace Spoken
variable {slot : Option Nat}

/-- Only the response of the registration that is served goes on, and only while that is open. -/
theorem response_eq (hst : Spoken slot s t) (hn : ∀ r, s.held slot = some r → r.phase ≠ .finalized → r.serial ≠ n) :
    t.shared.journal.response n = s.shared.journal.response n := by
  obtain ⟨es, hes, hm⟩ := hst.entries
  have hnone : Journal.tell (Entry.responds? n) es = [] := Journal.tell_eq_nil fun e he => ?_
  · rw [hes]
    unfold Journal.response
    rw [Journal.tell_append, hnone, List.append_nil]
  have hminor := (hm e he).2
  cases e with
  | called serial c u =>
    cases serial with
    | none => rfl
    | some m =>
      obtain ⟨r, hr, rfl, -, hc⟩ := hminor
      refine if_neg fun ⟨hm, hresponds⟩ => ?_
      rcases hc with hc | ⟨-, ho⟩
      · exact Call.not_responds_of_asks hc hresponds
      · exact hn r hr ho hm
  | _ => rfl

theorem registered_iff (hst : Spoken slot s t) {req : ReqId} {k : Nat} {p : Phase} :
    .registered n req k p ∈ t.shared.journal ↔ .registered n req k p ∈ s.shared.journal := by
  obtain ⟨es, hes, hm⟩ := hst.entries
  have hnone : .registered n req k p ∉ es := fun he => (hm _ he).1
  rw [hes, List.mem_append, or_iff_right hnone]

end Spoken

/-! ### The script of each registration -/

/-- What the engine has heard of each registration is a response to its request, which for one that is open
    has got as far as its flags tell. -/
structure Scripted (h : Host δ ω) (s : State δ ω) : Prop where
  soFar : ∀ {k r}, s.worker.requests.get? k = some r → r.phase ≠ .finalized →
    SoFar h r.id r.headersSent r.ended (s.shared.journal.response r.serial)
  words : ∀ {n req slot p}, .registered n req slot p ∈ s.shared.journal →
    Proper req (s.shared.journal.response n) ∨ ¬h.Calm ∧ CutShort req (s.shared.journal.response n)
  silent : ∀ {n}, ¬s.shared.journal.Knows n → s.shared.journal.response n = []

namespace Scripted

theorem mute_registered {es : Journal} (hj : t.shared.journal = es ++ s.shared.journal) (hes : ∀ e ∈ es, e.Mute)
    {req : ReqId} {p : Phase} :
    .registered n req k p ∈ t.shared.journal ↔ .registered n req k p ∈ s.shared.journal := by
  have hnone : .registered n req k p ∉ es := fun he => hes _ he
  rw [hj, List.mem_append, or_iff_right hnone]

/-- Nothing is said of a response, and each registration that is open has been open with the same flags. -/
theorem still (hs : Scripted h s) (es : Journal) (hj : t.shared.journal = es ++ s.shared.journal)
    (hes : ∀ e ∈ es, e.Mute)
    (hopen : ∀ {k r}, t.worker.requests.get? k = some r → r.phase ≠ .finalized → ∃ k' r',
      s.worker.requests.get? k' = some r' ∧ r'.phase ≠ .finalized ∧ r'.id = r.id ∧ r'.serial = r.serial ∧
        r'.headersSent = r.headersSent ∧ r'.ended = r.ended) : Scripted h t where
  soFar hr ho := by
    obtain ⟨k', r', hr', ho', hid, hserial, hsent, hended⟩ := hopen hr ho
    rw [hj, Journal.response_append_of_mute es hes, ← hid, ← hserial, ← hsent, ← hended]
    exact hs.soFar hr' ho'
  words hm := by
    rw [hj, Journal.response_append_of_mute es hes]
    exact hs.words ((mute_registered hj hes).mp hm)
  silent hn := by
    rw [hj, Journal.response_append_of_mute es hes]
    refine hs.silent fun ⟨req, slot, p, hm⟩ => hn ⟨req, slot, p, (mute_registered hj hes).mpr hm⟩

theorem mute (hs : Scripted h s) (hst : Mute s t) : Scripted h t := by
  obtain ⟨es, hj, hes⟩ := hst.entries
  refine hs.still es hj hes fun {k r} hr ho => ?_
  have hvoice := hst.voices k
  rw [hr] at hvoice
  obtain ⟨r', hr', hvoice⟩ := Option.map_eq_some_iff.mp hvoice.symm
  simp only [Registration.voice, Prod.mk.injEq] at hvoice
  obtain ⟨hid, hserial, hphase, hsent, hended⟩ := hvoice
  exact ⟨k, r', hr', hphase ▸ ho, hid, hserial, hsent, hended⟩

theorem of_eq (hs : Scripted h s) (hrequests : t.worker.requests = s.worker.requests) (es : Journal)
    (hj : t.shared.journal = es ++ s.shared.journal) (hes : ∀ e ∈ es, e.Mute) : Scripted h t :=
  hs.mute (.of_eq hrequests es hj hes)

theorem moved (hs : Scripted h s) (hr : s.worker.requests.get? k = some r) (ho : r.phase ≠ .finalized) (p : Phase) :
    Scripted h (Registry.moved s k r.serial p) := by
  refine hs.still [.moved _ _] rfl (by simp [Entry.Mute]) fun {k' r'} hr' ho' => ?_
  rw [get?_moved] at hr'
  split at hr'
  · next hk =>
    subst hk
    rw [hr] at hr'
    cases hr'
    exact ⟨_, r, hr, ho, rfl, rfl, rfl, rfl⟩
  · exact ⟨k', r', hr', ho', rfl, rfl, rfl, rfl⟩

theorem removed (hs : Scripted h s) (req : ReqId) (serial : Nat) : Scripted h (Registry.removed s req k serial) := by
  refine hs.still [.removed _] rfl (by simp [Entry.Mute]) fun {k' r'} hr' ho' => ?_
  exact ⟨k', r', (Arena.get?_of_remove hr').2, ho', rfl, rfl, rfl, rfl⟩

theorem registered (hs : Scripted h s) (hc : Course s) {req : ReqId} {p : Phase} {location : Option UInt64}
    {anchor : Bool} : Scripted h (Registry.registered s req p location anchor) := by
  have hfresh : ¬s.shared.journal.Knows s.worker.nextSerial := fun hn => Nat.lt_irrefl _ (hc.serials hn)
  have same : ∀ n, (Registry.registered s req p location anchor).shared.journal.response n =
      s.shared.journal.response n := fun n =>
    (Journal.tell_append (Entry.responds? n) [.registered _ _ _ _] _).trans (List.append_nil _)
  refine ⟨fun {k r} hr ho => ?_, fun {n req' slot q} hm => ?_, fun {n} hn => ?_⟩
  · rw [same]
    rw [get?_registered] at hr
    split at hr
    · cases hr
      rw [hs.silent hfresh]
      exact .heads (by simp [Heads])
    · exact hs.soFar hr ho
  · rw [same]
    rcases List.mem_cons.mp hm with hm | hm
    · cases hm
      rw [hs.silent hfresh]
      exact .inl ⟨[], [], [], rfl, by simp [Heads], .inl rfl, .inl rfl⟩
    · exact hs.words hm
  · rw [same]
    exact hs.silent fun hk => hn hk.cons

/-- The response of one registration, which has been open, has gone on. -/
theorem goneOn (hs : Scripted h s) (hc : Course s) (hr : s.worker.requests.get? k = some r)
    (hothers : ∀ k', k' ≠ k → t.worker.requests.get? k' = s.worker.requests.get? k')
    (hresponse : ∀ n, n ≠ r.serial → t.shared.journal.response n = s.shared.journal.response n)
    (hregistered : ∀ {n req slot p}, .registered n req slot p ∈ t.shared.journal ↔
      .registered n req slot p ∈ s.shared.journal)
    (hself : ∀ {r'}, t.worker.requests.get? k = some r' → r'.phase ≠ .finalized →
      SoFar h r'.id r'.headersSent r'.ended (t.shared.journal.response r'.serial))
    (hwords : Proper r.id (t.shared.journal.response r.serial) ∨
      ¬h.Calm ∧ CutShort r.id (t.shared.journal.response r.serial)) : Scripted h t where
  soFar {k' r'} hr' ho' := by
    by_cases hk : k' = k
    · subst hk
      exact hself hr' ho'
    · rw [hothers k' hk] at hr'
      -- No other registration has its serial number.
      rw [hresponse _ fun hserial => hk (hc.serial_inj hr' hr hserial)]
      exact hs.soFar hr' ho'
  words {n req slot p} hm := by
    have hm := hregistered.mp hm
    by_cases hn : n = r.serial
    · subst hn
      obtain ⟨q, hq⟩ := hc.entered hr
      obtain ⟨rfl, -⟩ := hc.lawful.registered_inj hm hq
      exact hwords
    · rw [hresponse n hn]
      exact hs.words hm
  silent {n} hn := by
    have hn' : ¬s.shared.journal.Knows n := fun ⟨req, slot, p, hm⟩ => hn ⟨req, slot, p, hregistered.mpr hm⟩
    rw [hresponse n fun heq => hn' (heq ▸ hc.knows hr)]
    exact hs.silent hn'

theorem ended (hs : Scripted h s) (hc : Course s) (hr : s.worker.requests.get? k = some r) (ho : r.phase ≠ .finalized)
    (rc : Int32) : Scripted h (h.ended s k r rc) := by
  have hj : (h.ended s k r rc).shared.journal =
      .called (some r.serial) (.finalize r.id rc) _ :: .moved r.serial .finalized :: s.shared.journal := rfl
  have hmoved : ∀ n, Journal.response (.moved r.serial .finalized :: s.shared.journal) n =
      s.shared.journal.response n :=
    Journal.response_append_of_mute [.moved _ _] (by simp [Entry.Mute]) _
  refine hs.goneOn hc hr (fun k' hk => ?_) (fun n hn => ?_) ?_ (fun {r'} hr' ho' => ?_) ?_
  · exact (get?_moved r.serial _ k').trans (if_neg hk)
  · rw [hj, Journal.response_called_of_ne (Ne.symm hn), hmoved]
  · intro n req slot p
    rw [hj]
    simp
  · cases (get?_moved_self hr).symm.trans hr'
    exact absurd rfl ho'
  · rw [hj, Journal.response_called rfl, hmoved]
    exact (hs.soFar hr ho).words (.inr ⟨rc, _, rfl⟩)

/-- Of a request that is not open nothing is heard. -/
theorem unheard (hs : Scripted h s) (hst : Spoken (some k) s t)
    (hk : ∀ r, s.worker.requests.get? k = some r → r.phase = .finalized) : Scripted h t := by
  have hresponse : ∀ n, t.shared.journal.response n = s.shared.journal.response n := fun n =>
    hst.response_eq fun r hr ho => absurd (hk r hr) ho
  refine ⟨fun {k' r'} hr' ho' => ?_, fun hm => ?_, fun {n} hn => ?_⟩
  · have hne : k' ≠ k := by
      rintro rfl
      have hcourse := hst.course k'
      rw [hr'] at hcourse
      obtain ⟨r, hr, hcourse⟩ := Option.map_eq_some_iff.mp hcourse.symm
      exact ho' ((Registration.course_inj hcourse).2.2.1 ▸ hk r hr)
    rw [hst.others k' fun heq => hne (Option.some.inj heq).symm] at hr'
    rw [hresponse]
    exact hs.soFar hr' ho'
  · rw [hresponse]
    exact hs.words (hst.registered_iff.mp hm)
  · rw [hresponse]
    exact hs.silent fun ⟨req, slot, p, hm⟩ => hn ⟨req, slot, p, hst.registered_iff.mpr hm⟩

/-- Code has made a call on its request. -/
theorem answered (hs : Scripted h s) (hc : Course s) (c : RequestCall) : Scripted h ((h.answer k c).exec s).2 := by
  have hst : Spoken (some k) s ((h.answer k c).exec s).2 := Spoken.answer c
  by_cases hopen : ∃ r, s.worker.requests.get? k = some r ∧ r.phase ≠ .finalized
  · obtain ⟨r, hr, ho⟩ := hopen
    obtain ⟨sent, ended, w, hv, hw⟩ : GoesOn h k r _ := GoesOn.answer hr (hs.soFar hr ho) c
    refine hs.goneOn hc hr (fun k' hk => hst.others k' fun heq => hk (Option.some.inj heq).symm)
      (fun n hn => hst.response_eq fun r' hr' _ => ?_) hst.registered_iff (fun {r'} hr' _ => ?_) ?_
    · cases hr.symm.trans hr'
      exact Ne.symm hn
    · obtain ⟨r'', hr'', hid, hserial, -, hsent, hended⟩ := hv.get
      cases hr''.symm.trans hr'
      rw [hid, hserial, hsent, hended, hv.response]
      exact hw
    · rw [hv.response, ← List.append_nil w]
      exact hw.words (.inl rfl)
  · exact hs.unheard hst fun r hr => Decidable.byContradiction fun ho => hopen ⟨r, hr, ho⟩

end Scripted

theorem Service.scripted {slot : Option Nat} (hc : Course a.2) (hs : Scripted h a.2) (hab : Service h slot a b) :
    Scripted h b.2 := by
  cases hab with
  | spoken hst =>
    cases hst with
    | aside hst => exact hs.mute (.aside hst)
    | answered c _ => exact hs.answered hc c
    | branched _ _ _ _ hb => exact hs.mute (.asked (Call.not_responds_of_branches hb))
  | data | numbered | offloaded | offloadEnded => exact hs.of_eq rfl [] rfl (by simp)
  | handed => exact hs.of_eq rfl [.handed _] rfl (by simp [Entry.Mute])
  | destroyed => exact hs.of_eq rfl [.destroyed _] rfl (by simp [Entry.Mute])
  | @sent X s p =>
    obtain ⟨es, hes, hm⟩ := Shared.send_minor h.waker s.shared p
    exact hs.of_eq rfl es hes fun e he => .of_minor (hm e he)
  | issued =>
    exact hs.of_eq rfl [.issued _ _, .called _ _ _, .called _ _ _] rfl
      (by simp [Entry.Mute, Host.childCall, Call.responds])
  | unissued =>
    exact hs.of_eq rfl [.destroyed _, .called _ _ _, .called _ _ _] rfl
      (by simp [Entry.Mute, Host.childCall, Call.responds])
  | broken =>
    exact hs.of_eq rfl [.called _ _ _, .called _ _ _] rfl
      (by simp [Entry.Mute, Host.childCall, Call.responds])

theorem Deed.scripted (hc : Course a.2) (hs : Scripted h a.2) (hab : Deed h a b) : Scripted h b.2 := by
  cases hab with
  | service hab => exact hab.scripted hc hs
  | moved hr ho => exact hs.moved hr ho _
  | ended rc hr ho => exact hs.ended hc hr ho rc
  | read => exact hs.mute (.asked nofun)
  | unread hr ho => exact (hs.mute (.asked (c := .readBody _) nofun)).moved hr ho _
  | registered => exact hs.registered hc
  | removed => exact hs.removed _ _
  | started => exact hs.of_eq rfl [.started _ _] rfl (by simp [Entry.Mute])
  | begun => exact hs.of_eq rfl [.started _ _, .ran _] rfl (by simp [Entry.Mute])
  | ran => exact hs.of_eq rfl [.ran _] rfl (by simp [Entry.Mute])
  | taken htake =>
    obtain ⟨queue, -, rfl⟩ := Shared.pop_of_take htake
    exact hs.of_eq rfl [.taken _] rfl (by simp [Entry.Mute])
  | looked htake =>
    obtain ⟨queue, -, rfl⟩ := Shared.pop_of_take_none htake
    exact hs.of_eq rfl [] rfl (by simp)
  | completed => exact hs.of_eq rfl [.completed _] rfl (by simp [Entry.Mute])
  | uncounted | untargeted | filtered | seen => exact hs.of_eq rfl [] rfl (by simp)

theorem Deeds.scripted (hc : Course a.2) (hs : Scripted h a.2) (hab : Relation.ReflTransGen (Deed h) a b) :
    Scripted h b.2 :=
  (invariant (P := fun b => Course b.2 ∧ Scripted h b.2)
    (fun ⟨hc, hb⟩ hbc => ⟨hbc.course hc, hbc.scripted hc hb⟩) ⟨hc, hs⟩ hab).2

theorem Reachable.scripted (hs : Reachable h s) : Scripted h s :=
  hs.invariant (P := fun a => Scripted h a.2) (fun _ _ _ _ => ⟨nofun, nofun, fun _ => rfl⟩)
    fun hc hs hab => hab.scripted hc hs

/-! ### The law of responses -/

/-- In every moment of every run, what the engine has heard of a registration is the response to its request:
    status and headers, then perhaps a body in pieces or a whole one of the length announced, then perhaps
    the end; only where the engine panics is it cut short before the header section. So the header section
    goes out once and is not touched later, one chunk at most is the last, and the body fits the length
    announced. All that the engine hears of responses is heard for some registration. -/
theorem Reachable.response_law (hs : Reachable h s) {u : State δ ω} (hu : Deeds h ([], s) X u) :
    (∀ {n req slot p}, .registered n req slot p ∈ u.shared.journal →
      (Proper req (u.shared.journal.response n) ∨ ¬h.Calm ∧ CutShort req (u.shared.journal.response n)) ∧
      Settled req (u.shared.journal.response n)) ∧
    ∀ {serial c upshot}, .called serial c upshot ∈ u.shared.journal → c.responds →
      ∃ n req slot p, serial = some n ∧ .registered n req slot p ∈ u.shared.journal ∧ c.req? = some req ∧
        (c, upshot) ∈ u.shared.journal.response n := by
  have hscript : Scripted h u := Deeds.scripted hs.course hs.scripted hu
  have hlawful := (Deeds.course hs.course hu).lawful
  refine ⟨fun hm => ⟨hscript.words hm, settled ((hscript.words hm).imp_right And.right)⟩, fun {serial c v} hm hc => ?_⟩
  cases serial with
  | none => exact absurd hc (Call.not_responds_of_asks (hlawful.asks_of_none hm))
  | some n =>
    have hmem : (c, v) ∈ u.shared.journal.response n := Journal.mem_tell.mpr ⟨_, hm, if_pos ⟨rfl, hc⟩⟩
    by_cases hn : u.shared.journal.Knows n
    · obtain ⟨req, slot, p, hreg⟩ := hn
      exact ⟨n, req, slot, p, rfl, hreg, req?_eq ((hscript.words hreg).imp_right And.right) _ hmem, hmem⟩
    · rw [hscript.silent hn] at hmem
      cases hmem

/-- A handler that sets the status, sends a piece and then the last chunk, which is empty. -/
theorem response_law_when_streamed :
    let h : Host Unit Unit := .prompt ⟨9⟩ (.call (.setStatus 201) fun _ => .call (.send [104, 105] false) fun _ =>
      .call (.conclude []) fun _ => .finish (.ok .ok))
    ∃ s, Reachable h s ∧ s.shared.journal.response 1 = [(.setStatus ⟨1⟩ 201, .succeeded), (.sendHeader ⟨1⟩, .succeeded),
      (.output ⟨1⟩ ⟨[104, 105], false, false⟩, .succeeded), (.output ⟨1⟩ ⟨[], false, true⟩, .succeeded),
      (.finalize ⟨1⟩ 0, .succeeded)] ∧ Proper ⟨1⟩ (s.shared.journal.response 1) ∧
      Settled ⟨1⟩ (s.shared.journal.response 1) := by
  intro h
  let s := ((h.run (.hook (.contentPhase ⟨1⟩) fun _ => .done)).exec State.fresh).2
  have hs : Reachable h s := Reachable.fresh.run _
  have hm : .registered 1 ⟨1⟩ 0 .received ∈ s.shared.journal := by decide +kernel
  have hc : h.Calm := .prompt _ _
  obtain ⟨hwords, hsettled⟩ := (Reachable.response_law hs .refl).1 hm
  exact ⟨s, hs, by decide +kernel, hwords.resolve_right fun hcut => hcut.1 hc, hsettled⟩

end EngineBridge
