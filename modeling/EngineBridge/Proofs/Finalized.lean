import EngineBridge.Proofs.Reach

/-! The end of a request. A registration that has come to its end remains there until it is removed:
    nothing is started against it, the engine hears of it once more at most, when it is told of the end,
    and code that still has the request is refused what needs an open one. -/

namespace EngineBridge
open EngineBridge.Action Registry
variable {δ ω : Type} {h : Host δ ω} {s t : State δ ω} {k : Nat} {r : Registration}

/-! ### Calls on a request that is over -/

namespace Host

/-- The state after a closure has been handed over and destroyed at once. -/
def turnedAway (s : State δ ω) : State δ ω := noted (handed s) (.destroyed s.shared.nextTicket)

/-- All that code can do to the response of the request in a slot, and all that takes a closure from it,
    is answered with an error. The engine is not called, and nothing is changed, except that a closure
    is destroyed. -/
structure Refuses (h : Host δ ω) (s : State δ ω) (k : Nat) (e : Error) : Prop where
  setStatus : ∀ code, (h.answer k (.setStatus code)).exec s = (.ok (.error e), s)
  addHeader : ∀ name value, (h.answer k (.addHeader name value)).exec s = (.ok (.error e), s)
  send : ∀ data flush, (h.answer k (.send data flush)).exec s = (.ok (.error e), s)
  sendShared : ∀ data flush, (h.answer k (.sendShared data flush)).exec s = (.ok (.error e), s)
  conclude : ∀ data, (h.answer k (.conclude data)).exec s = (.ok (.error e), s)
  concludeShared : ∀ data, (h.answer k (.concludeShared data)).exec s = (.ok (.error e), s)
  sendRequest : ∀ sub done, (h.sendRequest k sub done).exec s = (.ok (.error e), turnedAway s)
  offload : ∀ work done, (h.offload k work done).exec s = (.ok (.error e), turnedAway s)

theorem refuses_of_finalized (hr : s.worker.requests.get? k = some r) (hf : r.phase = .finalized) :
    h.Refuses s k (.finalized r.id) := by
  have shared : ∀ data flush, (h.sendShared k data flush).exec s = (.ok (.error (.finalized r.id)), s) := by
    intro data flush
    unfold Host.sendShared
    rw [exec_bind_of_ok (exec_registration_of_some hr), r.checkWritable_of_finalized hf]
    rfl
  have conclude : ∀ data, (h.conclude k data).exec s = (.ok (.error (.finalized r.id)), s) := by
    intro data
    unfold Host.conclude
    rw [exec_bind_of_ok (exec_registration_of_some hr), r.checkWritable_of_finalized hf]
    rfl
  refine ⟨fun code => ?_, fun name value => ?_, fun data flush => ?_, shared, conclude, conclude,
    fun sub done => ?_, fun work done => ?_⟩
  · unfold answer Host.setStatus
    rw [exec_bind_of_ok (exec_registration_of_some hr), r.checkHeaderOpen_of_finalized hf]
    rfl
  · unfold answer Host.addHeader
    rw [exec_bind_of_ok (exec_registration_of_some hr), r.checkHeaderOpen_of_finalized hf]
    rfl
  · unfold answer Host.send
    dsimp only
    split
    · rw [exec_bind_of_ok (exec_registration_of_some hr), r.checkWritable_of_finalized hf]
      rfl
    · exact shared data flush
  · unfold Host.sendRequest
    rw [exec_bind_of_ok (exec_registration_of_some hr), exec_bind_of_ok (exec_hand s),
      r.checkLive_of_finalized hf]
    rfl
  · unfold Host.offload
    rw [exec_bind_of_ok (exec_registration_of_some hr), exec_bind_of_ok (exec_hand s),
      r.checkLive_of_finalized hf]
    rfl

end Host

/-! ### The end of a registration -/

/-- How a registration ends, as a journal tells it. -/
structure Journal.EndsOnce (j : Journal) (n : Nat) : Prop where
  /-- The engine is told of the end at most once. -/
  once : j.finalizeCount n ≤ 1
  /-- It is told so of the request that has been registered. -/
  named : ∀ {req rc u}, .called (some n) (.finalize req rc) u ∈ j → ∃ slot p, .registered n req slot p ∈ j
  /-- It is never told so when it has failed to read the body. -/
  unread : j.BodyFailed n → j.finalizeCount n = 0
  /-- From the end on the registration stays there until it is removed. -/
  stays : ∀ {later earlier}, j = later ++ earlier → earlier.phase? n = some .finalized →
    j.phase? n = some .finalized ∨ .removed n ∈ later
  /-- From the end on no code is started against it and no call of the engine writes for it. -/
  still : ∀ {later earlier}, j = later ++ earlier → earlier.phase? n = some .finalized →
    ∀ e ∈ later, ¬Stirs n e

namespace Journal

theorem Lawful.endsOnce {j : Journal} (hl : j.Lawful) (n : Nat) : j.EndsOnce n where
  once := hl.finalizeCount_le_one
  named hm := hl.registered_of_finalize hm
  unread := hl.finalizeCount_of_bodyFailed
  stays := by
    rintro later earlier rfl hp
    rw [← hp]
    exact (hl.of_append.over_of_finalized hp).phase?_append hl
  still := by
    rintro later earlier rfl hp
    exact (hl.of_append.over_of_finalized hp).not_stirs hl

end Journal

/-- A registration that is over is the same later on, as long as it has not been removed. -/
theorem Steps.finalized (hs : Reachable h s) (hst : Steps h s t) (hr : s.worker.requests.get? k = some r)
    (hf : r.phase = .finalized) :
    (∃ r', t.worker.requests.get? k = some r' ∧ r'.serial = r.serial ∧ r'.phase = .finalized) ∨
      .removed r.serial ∈ t.shared.journal := by
  have hc := (hs.steps hst).course
  obtain ⟨later, hj⟩ := Deeds.grows (hst.deeds hs)
  have hp := hs.course.phase hr
  rw [hf] at hp
  rcases (hc.lawful.endsOnce r.serial).stays hj.symm hp with hp' | hd
  · obtain ⟨k', r', hr', hserial⟩ := hc.held hp'
    obtain ⟨p, hm⟩ := hs.course.entered hr
    obtain ⟨p', hm'⟩ := hc.entered hr'
    rw [hserial] at hm'
    -- Both have been made under one serial number, so they are in one slot.
    obtain ⟨-, rfl, -⟩ := hc.lawful.registered_inj hm' (hj ▸ List.mem_append_right later hm)
    refine .inl ⟨r', hr', hserial, ?_⟩
    have := hc.phase hr'
    rw [hserial, hp'] at this
    exact (Option.some.inj this).symm
  · exact .inr (hj ▸ List.mem_append_left _ hd)

/-- In every run each registration ends once. The engine is told of an end only for a registration, once at
    most, and not at all if it has failed to read the body; from its end on the registration stays there
    until it is removed, no handler, continuation or callback is started against it, and whatever needs an
    open request is refused without a call of the engine. -/
theorem Reachable.ends_once (hs : Reachable h s) :
    (∀ n, s.shared.journal.EndsOnce n) ∧
    (∀ {req rc u}, .called none (.finalize req rc) u ∉ s.shared.journal) ∧
    (∀ {k r}, s.worker.requests.get? k = some r → s.shared.journal.phase? r.serial = some r.phase) ∧
    (∀ {t k r}, Steps h s t → s.worker.requests.get? k = some r → r.phase = .finalized →
      (∃ r', t.worker.requests.get? k = some r' ∧ r'.serial = r.serial ∧ r'.phase = .finalized) ∨
        .removed r.serial ∈ t.shared.journal) ∧
    ∀ {u : State δ ω} {k r}, u.worker.requests.get? k = some r → r.phase = .finalized →
      h.Refuses u k (.finalized r.id) :=
  ⟨hs.course.lawful.endsOnce, hs.course.lawful.not_mem_finalize_none, hs.course.phase,
    fun hst => hst.finalized hs, Host.refuses_of_finalized⟩

/-- A request whose handler ends it at once. -/
theorem ends_once_when_handled : ∃ s : State Unit Unit, s.shared.journal.finalizeCount 1 = 1 ∧
    s.shared.journal.EndsOnce 1 ∧ ∃ r, s.worker.requests.get? 0 = some r ∧ r.phase = .finalized ∧
      (Host.prompt ⟨9⟩ (.finish (.ok .ok))).Refuses s 0 (.finalized r.id) := by
  let h : Host Unit Unit := .prompt ⟨9⟩ (.finish (.ok .ok))
  let s := ((h.run (.hook (.contentPhase ⟨1⟩) fun _ => .done)).exec State.fresh).2
  have hs : Reachable h s := Reachable.fresh.run _
  have hr : s.worker.requests.get? 0 =
      some { id := ⟨1⟩, serial := 1, phase := .finalized, location := some 1 } := rfl
  obtain ⟨hn, -, -, -, hf⟩ := Reachable.ends_once hs
  exact ⟨s, by decide +kernel, hn 1, _, hr, rfl, hf hr rfl⟩

end EngineBridge
