import EngineBridge.Proofs.Handover

/-! Which calls on a response come at the right time. That depends on which have come at the right time
    before, and on nothing else that has been done with the worker in between: once a chunk has been handed
    over status and headers are closed, and once the last one has been, the body is closed too. -/

namespace EngineBridge
open EngineBridge.Action Registry
variable {δ ω : Type} {h : Host δ ω} {s t u : State δ ω} {a b : List Nat × State δ ω} {X : List Nat} {k n : Nat}
  {r r' : Registration} {c : RequestCall}

/-! ### Histories -/

/-- Calls on a registration, the latest first, each with what it has been refused for, if it has been. -/
abbrev Attempts := List (RequestCall × Option Error)

namespace Attempts

/-- A call of a kind has been made and has not been refused. -/
def passed (l : Attempts) (kind : RequestCall → Bool) : Bool := l.any fun x => kind x.1 && x.2.isNone

/-- Whether a chunk has been handed over, and whether the last one has. -/
def flags (l : Attempts) : Bool × Bool := (l.passed RequestCall.writes, l.passed RequestCall.concludes)

theorem flags_cons (c : RequestCall) (e : Option Error) (l : Attempts) : Attempts.flags ((c, e) :: l) =
    (c.writes && e.isNone || l.flags.1, c.concludes && e.isNone || l.flags.2) := rfl

end Attempts

/-- Code has made a call on a registration: a state before and after it, each with the closures in hand. -/
def Host.Calls (h : Host δ ω) (n : Nat) (a b : List Nat × State δ ω) : Prop :=
  ∃ k r c, a.2.worker.requests.get? k = some r ∧ r.serial = n ∧ b = (a.1, ((h.answer k c).exec a.2).2)

/-- A way to tell how a worker has come to a state and closures in hand: it starts with nothing, takes down each call
    on a registration, and has nothing to say of whatever else is done. -/
structure Recounts {ι : Type} (h : Host δ ω) (n : Nat) (P : List ι → List Nat × State δ ω → Prop) : Prop where
  opened : ∀ {store config data world s}, State.open store config data world = .ok s → P [] ([], s)
  called : ∀ {l X s k r} (c : RequestCall), P l (X, s) → s.worker.requests.get? k = some r → r.serial = n →
    ∃ l', P l' (X, ((h.answer k c).exec s).2)
  apart : ∀ {l a b}, P l a → Deed h a b → ¬h.Calls n a b → P l b

namespace Recounts
variable {ι : Type} {P : List ι → List Nat × State δ ω → Prop} {l : List ι}

theorem deed (hP : Recounts h n P) (hl : P l a) (hab : Deed h a b) : ∃ l, P l b := by
  by_cases hcall : h.Calls n a b
  · obtain ⟨k, r, c, hr, hn, rfl⟩ := hcall
    exact hP.called c hl hr hn
  · exact ⟨l, hP.apart hl hab hcall⟩

theorem deeds (hP : Recounts h n P) (hl : P l a) (hab : Relation.ReflTransGen (Deed h) a b) : ∃ l, P l b :=
  Deeds.invariant (P := fun b => ∃ l, P l b) (fun ⟨_, hl⟩ hbc => hP.deed hl hbc) ⟨l, hl⟩ hab

/-- Every moment of every run can be told of. -/
theorem reachable (hP : Recounts h n P) (hs : Reachable h s) : ∃ l, P l ([], s) := by
  induction hs with
  | opened hs => exact ⟨[], hP.opened hs⟩
  | step hs hst ih =>
    obtain ⟨l, hl⟩ := ih
    exact hP.deeds hl (hst.deeds hs.course)

end Recounts

/-- How a worker has come to a state and closures in hand since it was opened: the calls that have been made
    on a registration on the way, whatever else has been done. -/
inductive History (h : Host δ ω) (n : Nat) : Attempts → List Nat × State δ ω → Prop
  | opened {store config data world s} : State.open store config data world = .ok s → History h n [] ([], s)
  | called {l X s k r} (c : RequestCall) : History h n l (X, s) → s.worker.requests.get? k = some r → r.serial = n →
    History h n ((c, h.refusal? s k c) :: l) (X, ((h.answer k c).exec s).2)
  /-- Something else has been done; what comes to the same as a call on the registration is told as one. -/
  | apart {l a b} : History h n l a → Deed h a b → ¬h.Calls n a b → History h n l b

/-- A call that code makes on a request is a deed. -/
theorem Deed.answered (c : RequestCall) : Deed h (X, s) (X, ((h.answer k c).exec s).2) :=
  .service (.spoken (.answered c rfl))

namespace History
variable {l : Attempts}

theorem course (hl : History h n l a) : Course a.2 := by
  induction hl with
  | opened hs => exact .opened hs
  | @called l X s k r c _ _ _ ih => exact (Deed.answered (X := X) c).course ih
  | apart _ hab _ ih => exact hab.course ih

theorem recounts : Recounts h n (History h n) where
  opened := .opened
  called c hl hr hn := ⟨_, .called c hl hr hn⟩
  apart := .apart

theorem deeds (hl : History h n l a) (hab : Relation.ReflTransGen (Deed h) a b) : ∃ l, History h n l b :=
  recounts.deeds hl hab

end History

/-- Every moment of every run has a history. -/
theorem Reachable.history (hs : Reachable h s) (n : Nat) : ∃ l, History h n l ([], s) :=
  History.recounts.reachable hs

/-! ### What the flags of a registration tell -/

/-- Whether a chunk counts as handed over, and whether the last one does. -/
def Registration.flags (r : Registration) : Bool × Bool := (r.headersSent || r.ended, r.ended)

theorem RequestCall.concludes_of_not_writes (hc : c.writes = false) : c.concludes = false := by
  cases c <;> first | rfl | cases hc

/-- A call sets the flags of its registration for what it hands over, unless it is refused. -/
theorem Registration.flags_answer (hr : s.worker.requests.get? k = some r)
    (hr' : ((h.answer k c).exec s).2.worker.requests.get? k = some r') {l : Attempts} (hl : r.flags = l.flags) :
    r'.flags = Attempts.flags ((c, h.refusal? s k c) :: l) := by
  rw [Attempts.flags_cons, ← hl, h.refusal?_eq hr]
  cases hc : c.writes with
  | false =>
    obtain ⟨w, hv, -⟩ := Abides.answer (h := h) hr hc
    obtain ⟨r'', hr'', -, -, -, hsent, hended⟩ := hv.get
    cases hr''.symm.trans hr'
    simp [flags, hsent, hended, RequestCall.concludes_of_not_writes hc]
  | true =>
    cases ho : r.objection c with
    | some e =>
      rw [(h.refused_of_objection hr ho).2, hr] at hr'
      cases hr'
      simp
    | none =>
      obtain ⟨chunk, hlast, sent, w, hv, hmark, -⟩ := HandsOver.answer (h := h) hr hc ho
      obtain ⟨r'', hr'', -, -, -, hsent, hended⟩ := hv.get
      cases hr''.symm.trans hr'
      rw [hlast] at hmark hended
      simp [flags, hsent, hended, hmark, (r.open_of_objection hc ho).2]

theorem Service.origin {slot : Option Nat} (hab : Service h slot a b)
    (hr' : b.2.worker.requests.get? k = some r') :
    h.Calls r'.serial a b ∨ b.2.worker.requests.get? k = a.2.worker.requests.get? k := by
  cases hab with
  | @spoken X s t hst =>
    cases hst with
    | aside hst => exact .inr (hst.others k nofun)
    | @answered k' c hslot =>
      subst hslot
      have hst := Spoken.answer (h := h) (s := s) (k := k') c
      by_cases hk : k' = k
      · subst hk
        have hcourse := hst.course k'
        rw [hr'] at hcourse
        obtain ⟨r, hr, hcourse⟩ := Option.map_eq_some_iff.mp hcourse.symm
        exact .inl ⟨k', r, c, hr, (Registration.course_inj hcourse).2.1, rfl⟩
      · exact .inr (hst.others k fun heq => hk (Option.some.inj heq))
    | branched => exact .inr rfl
  | data | numbered | handed | destroyed | sent | offloaded | offloadEnded => exact .inr rfl
  | issued | unissued | broken => exact .inr rfl

/-- Where one registration has moved to a phase, each is in all else as it was. -/
theorem exists_of_get?_moved {k' : Nat} {p : Phase} (serial : Nat)
    (hr' : (moved s k' serial p).worker.requests.get? k = some r') :
    ∃ r q, s.worker.requests.get? k = some r ∧ r' = { r with phase := q } := by
  rw [get?_moved] at hr'
  split at hr'
  · obtain ⟨r, hr, rfl⟩ := Option.map_eq_some_iff.mp hr'
    exact ⟨r, p, hr, rfl⟩
  · exact ⟨r', r'.phase, hr', rfl⟩

/-- Where each registration comes from by a deed: code has made a call on it, or it is new, or it was there before
    and is at most at another point of its course. -/
theorem Deed.origin (hab : Deed h a b) (hr' : b.2.worker.requests.get? k = some r') : h.Calls r'.serial a b ∨
    (∃ req p location anchor, r' = { id := req, serial := a.2.worker.nextSerial, phase := p, location, anchor }) ∨
    ∃ r p, a.2.worker.requests.get? k = some r ∧ r' = { r with phase := p } := by
  cases hab with
  | service hab =>
    rcases hab.origin hr' with hcall | heq
    · exact .inl hcall
    · exact .inr (.inr ⟨r', r'.phase, heq.symm.trans hr', rfl⟩)
  | moved => exact .inr (.inr (exists_of_get?_moved _ hr'))
  | @ended X s k' r => exact .inr (.inr (exists_of_get?_moved r.serial hr'))
  | @unread X s k' r => exact .inr (.inr (exists_of_get?_moved r.serial hr'))
  | registered req location anchor =>
    rw [get?_registered] at hr'
    split at hr'
    · cases hr'
      exact .inr (.inl ⟨req, _, location, anchor, rfl⟩)
    · exact .inr (.inr ⟨r', r'.phase, hr', rfl⟩)
  | removed => exact .inr (.inr ⟨r', r'.phase, (Arena.get?_of_remove hr').2, rfl⟩)
  | read | started | begun | ran | completed => exact .inr (.inr ⟨r', r'.phase, hr', rfl⟩)
  | uncounted | untargeted | filtered | seen => exact .inr (.inr ⟨r', r'.phase, hr', rfl⟩)
  | taken htake =>
    obtain ⟨queue, -, rfl⟩ := Shared.pop_of_take htake
    exact .inr (.inr ⟨r', r'.phase, hr', rfl⟩)
  | looked htake =>
    obtain ⟨queue, -, rfl⟩ := Shared.pop_of_take_none htake
    exact .inr (.inr ⟨r', r'.phase, hr', rfl⟩)

/-- The flags of a registration tell which calls on it have passed. -/
structure Agrees (n : Nat) (l : Attempts) (s : State δ ω) : Prop where
  flags : ∀ {k r}, s.worker.requests.get? k = some r → r.serial = n → r.flags = l.flags
  known : l ≠ [] → s.shared.journal.Knows n

namespace Agrees
variable {l : Attempts}

theorem called (hs : Agrees n l s) (hc : Course s) (hr : s.worker.requests.get? k = some r) (hn : r.serial = n)
    (c : RequestCall) : Agrees n ((c, h.refusal? s k c) :: l) ((h.answer k c).exec s).2 where
  flags {k' r'} hr' hn' := by
    have hst : Spoken (some k) s _ := Spoken.answer (h := h) c
    have hk : k' = k := Decidable.byContradiction fun hk => by
      rw [hst.others k' fun heq => hk (Option.some.inj heq).symm] at hr'
      exact hk (hc.serial_inj hr' hr (hn'.trans hn.symm))
    subst hk
    exact r.flags_answer hr hr' (hs.flags hr hn)
  known _ := by
    obtain ⟨req, slot, p, hm⟩ := hc.knows hr
    exact ⟨req, slot, p, (Spoken.answer (h := h) c).registered_iff.mpr (hn ▸ hm)⟩

theorem apart (hs : Agrees n l a.2) (hc : Course a.2) (hab : Deed h a b) (hcalls : ¬h.Calls n a b) :
    Agrees n l b.2 where
  flags {k r'} hr' hn := by
    subst hn
    rcases hab.origin hr' with hcall | ⟨req, p, location, anchor, rfl⟩ | ⟨r, p, hr, rfl⟩
    · exact absurd hcall hcalls
    · -- No call has been made on a registration that is new.
      have hnil : l = [] := Decidable.byContradiction fun hl => by
        have hlt := hc.serials (hs.known hl)
        dsimp only at hlt
        omega
      rw [hnil]
      rfl
    · exact hs.flags (r := r) hr rfl
  known hl := by
    obtain ⟨req, slot, p, hm⟩ := hs.known hl
    exact ⟨req, slot, p, hab.grows.subset hm⟩

end Agrees

theorem History.agrees {l : Attempts} (hl : History h n l a) : Agrees n l a.2 := by
  induction hl with
  | opened hs =>
    obtain rfl := State.open_eq hs
    exact ⟨nofun, fun hl => absurd rfl hl⟩
  | called c hl hr hn ih => exact ih.called hl.course hr hn c
  | apart hl hab hcalls ih => exact ih.apart hl.course hab hcalls

/-! ### The law of acceptance -/

/-- In every moment of every run, which calls on a registration are refused, and for what, is a matter of its
    phase and of which calls on it have passed so far: for one that has ended all of them are; status and
    headers are refused once a chunk has been handed over, and chunks once the last one has been, as is a
    piece that is empty. A call that is refused changes nothing, and it makes no difference whether a piece
    is copied. -/
theorem Reachable.acceptance_law (hs : Reachable h s) (hu : Deeds h ([], s) X u)
    (hr : u.worker.requests.get? k = some r) :
    (∃ l, History h r.serial l (X, u)) ∧ (∀ l, History h r.serial l (X, u) → ∀ c, h.refusal? u k c =
      c.untimely? r.id (r.phase = .finalized) (l.passed RequestCall.writes) (l.passed RequestCall.concludes)) ∧
    (∀ c e, h.refusal? u k c = some e → ((h.answer k c).exec u).2 = u) ∧
    ∀ data flush, (h.send k data flush).exec u = (h.sendShared k data flush).exec u := by
  refine ⟨?_, fun l hl c => ?_, fun c e he => ?_, fun data flush => h.exec_send_eq u k data flush⟩
  · obtain ⟨l, hl⟩ := hs.history r.serial
    exact hl.deeds hu
  · have hflags : r.flags = l.flags := hl.agrees.flags hr rfl
    have hbegun : (r.headersSent || r.ended) = l.passed RequestCall.writes := congrArg Prod.fst hflags
    have hended : r.ended = l.passed RequestCall.concludes := congrArg Prod.snd hflags
    rw [h.refusal?_eq hr, ← hbegun, ← hended]
    rfl
  · exact (h.refused_of_objection hr ((h.refusal?_eq hr c).symm.trans he)).2

/-- While a body is sent in pieces it is too late for the status, but not for the last chunk. -/
theorem acceptance_law_when_streaming :
    let h : Host Unit Unit := .prompt ⟨9⟩ (.call (.send [97] false) fun _ => .finish (.ok .async))
    ∃ s l, Reachable h s ∧ History h 1 l ([], s) ∧ l.passed RequestCall.writes ∧ ¬l.passed RequestCall.concludes ∧
      h.refusal? s 0 (.setStatus 500) = some .headersSent ∧ ((h.answer 0 (.setStatus 500)).exec s).2 = s ∧
      h.refusal? s 0 (.conclude []) = none := by
  intro h
  let s := ((h.run (.hook (.contentPhase ⟨1⟩) fun _ => .done)).exec State.fresh).2
  have hs : Reachable h s := Reachable.fresh.run _
  have hr : s.worker.requests.get? 0 =
    some { id := ⟨1⟩, serial := 1, phase := .suspended, location := some 1, headersSent := true } := by decide +kernel
  have hstatus : h.refusal? s 0 (.setStatus 500) = some .headersSent := by decide +kernel
  have hlast : h.refusal? s 0 (.conclude []) = none := by decide +kernel
  obtain ⟨⟨l, hl⟩, hdue, hsame, -⟩ := Reachable.acceptance_law hs .refl hr
  have hended : l.passed RequestCall.concludes = false := by
    have heq := hlast.symm.trans (hdue l hl _)
    cases hp : l.passed RequestCall.concludes with
    | false => rfl
    | true => simp [RequestCall.untimely?, hp] at heq
  have hbegun : l.passed RequestCall.writes = true := by
    have heq := hstatus.symm.trans (hdue l hl _)
    cases hp : l.passed RequestCall.writes with
    | true => rfl
    | false => simp [RequestCall.untimely?, hp, hended] at heq
  exact ⟨s, l, hs, hl, hbegun, by simp [hended], hstatus, hsame _ _ hstatus, hlast⟩

end EngineBridge
