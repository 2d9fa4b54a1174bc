import EngineBridge.Proofs.Leaves

/-! What the worker does on behalf of application code that runs against a request, and what it does
    without one, leaves the course of every request as it is: which requests are registered, where, and
    in which phase. Only the record of the request itself is touched, and only its flags and the data
    read for it. The engine is asked what it knows, or called for a request that is not over. Two
    relations say so: `Spoken` of what deals with no closure, `Served` of all that code can do. -/

namespace EngineBridge
open EngineBridge.Action Registry

/-! ### Calls and entries by what they are about -/

namespace Call

/-- The request that a call is about. -/
def req? : Call → Option ReqId
  | log _ _ | newAnchor _ => none
  | location req | method req | uri req | args req | headers req | readBody req | body req | mainOf req
  | setStatus req _ | addHeader req _ _ | setContentLength req _ | setHeaderOnly req | sendHeader req
  | output req _ | finalize req _ | subrequest req _ _ | runPosted req | setPeer req _ => some req

/-- Calls that can be made at any time: they read what the engine knows, log a line, or serve the
    connection to a peer. -/
def asks : Call → Bool
  | log _ _ | location _ | method _ | uri _ | args _ | headers _ | body _ | newAnchor _ | setPeer _ _ => true
  | readBody _ | mainOf _ | setStatus _ _ | addHeader _ _ _ | setContentLength _ _ | setHeaderOnly _
  | sendHeader _ | output _ _ | finalize _ _ | subrequest _ _ _ | runPosted _ => false

/-- Calls that are made for a request only while it is open: they write its response or issue a
    subrequest from it. -/
def writes : Call → Bool
  | setStatus _ _ | addHeader _ _ _ | setContentLength _ _ | setHeaderOnly _ | sendHeader _ | output _ _
  | mainOf _ | subrequest _ _ _ | runPosted _ => true
  | log _ _ | location _ | method _ | uri _ | args _ | headers _ | body _ | newAnchor _ | setPeer _ _
  | readBody _ | finalize _ _ => false

end Call

/-- What of a registration only the course of the request's life changes. -/
def Registration.course (r : Registration) : ReqId × Nat × Phase × Option UInt64 × Bool :=
  (r.id, r.serial, r.phase, r.location, r.anchor)

theorem Registration.course_inj {r r' : Registration} (h : r.course = r'.course) :
    r.id = r'.id ∧ r.serial = r'.serial ∧ r.phase = r'.phase ∧ r.location = r'.location ∧
      r.anchor = r'.anchor := by
  simpa only [course, Prod.mk.injEq] using h

/-- Entries that change nothing in the course of a request. What is called on behalf of a registration
    is called for the given one: to read, or to write while it is open. -/
def Entry.Minor (who : Option Registration) : Entry → Prop
  | .handed _ | .destroyed _ | .queued _ | .refused _ | .woken | .logged _ _ | .issued _ _ => True
  | .called none c _ => c.asks
  | .called (some n) c _ => ∃ r, who = some r ∧ n = r.serial ∧ c.req? = some r.id ∧
      (c.asks ∨ c.writes ∧ r.phase ≠ .finalized)
  | .ran _ | .taken _ | .registered _ _ _ _ | .moved _ _ | .removed _ | .started _ _ | .completed _ => False

/-- Entries about calls of the engine and lines of the log. -/
def Entry.Talk : Entry → Prop
  | .called _ _ _ | .logged _ _ => True
  | _ => False

theorem Entry.Minor.congr {who who' : Option Registration} {e : Entry} (he : e.Minor who)
    (hw : who'.map Registration.course = who.map Registration.course) : e.Minor who' := by
  cases e with
  | called serial c u =>
    cases serial with
    | none => exact he
    | some n =>
      obtain ⟨r, rfl, hn, hc, ho⟩ := he
      obtain ⟨r', rfl, hr'⟩ := Option.map_eq_some_iff.mp hw
      obtain ⟨hid, hserial, hphase, -⟩ := Registration.course_inj hr'
      exact ⟨r', rfl, by rw [hserial, hn], by rw [hid, hc], by rw [hphase]; exact ho⟩
  | _ => exact he

theorem Entry.Minor.of_none {who : Option Registration} {e : Entry} (he : e.Minor none) : e.Minor who := by
  cases e with
  | called serial c u =>
    cases serial with
    | none => exact he
    | some n =>
      obtain ⟨_, hr, -⟩ := he
      cases hr
  | _ => exact he

/-! ### The relations -/

section
variable {δ ω : Type}

/-- The registration in a slot, if a slot is given. -/
def State.held (s : State δ ω) (slot : Option Nat) : Option Registration :=
  slot.bind s.worker.requests.get?

/-- From one state to another, the engine has been called, lines have been logged and data have been
    kept on behalf of the registration in a slot, or of none; nothing else has been done. -/
structure Spoken (slot : Option Nat) (s t : State δ ω) : Prop where
  worker : t.worker = { s.worker with requests := t.worker.requests }
  shared : t.shared = { s.shared with world := t.shared.world, journal := t.shared.journal }
  others : ∀ k, slot ≠ some k → t.worker.requests.get? k = s.worker.requests.get? k
  course : ∀ k, (t.worker.requests.get? k).map Registration.course =
    (s.worker.requests.get? k).map Registration.course
  entries : ∃ es, t.shared.journal = es ++ s.shared.journal ∧ ∀ e ∈ es, e.Talk ∧ e.Minor (s.held slot)

/-- From one state to another, nothing has been done but on behalf of the registration in a slot, or of
    none, and its course has not changed. -/
structure Served (slot : Option Nat) (s t : State δ ω) : Prop where
  slots : t.worker.slots = s.worker.slots
  others : ∀ k, slot ≠ some k → t.worker.requests.get? k = s.worker.requests.get? k
  course : ∀ k, (t.worker.requests.get? k).map Registration.course =
    (s.worker.requests.get? k).map Registration.course
  serials : s.worker.nextSerial ≤ t.worker.nextSerial
  logger : t.worker.logger = s.worker.logger
  entries : ∃ es, t.shared.journal = es ++ s.shared.journal ∧ ∀ e ∈ es, e.Minor (s.held slot)

variable {slot : Option Nat} {s t u : State δ ω}

theorem State.held_course (hc : ∀ k, (t.worker.requests.get? k).map Registration.course =
    (s.worker.requests.get? k).map Registration.course) :
    (t.held slot).map Registration.course = (s.held slot).map Registration.course := by
  cases slot with
  | none => rfl
  | some k => exact hc k

namespace Spoken

theorem refl (s : State δ ω) : Spoken slot s s :=
  ⟨rfl, rfl, fun _ _ => rfl, fun _ => rfl, [], rfl, by simp⟩

/-- What is done on behalf of none can be done on behalf of any. -/
theorem of_none (h : Spoken none s t) : Spoken slot s t where
  worker := h.worker
  shared := h.shared
  others k _ := h.others k nofun
  course := h.course
  entries := by
    obtain ⟨es, hes, hm⟩ := h.entries
    exact ⟨es, hes, fun e he => ⟨(hm e he).1, (hm e he).2.of_none⟩⟩

theorem trans (h₁ : Spoken slot s t) (h₂ : Spoken slot t u) : Spoken slot s u where
  worker := h₂.worker.trans (by rw [h₁.worker])
  shared := h₂.shared.trans (by rw [h₁.shared])
  others k hk := (h₂.others k hk).trans (h₁.others k hk)
  course k := (h₂.course k).trans (h₁.course k)
  entries := by
    obtain ⟨es, hes, hm⟩ := h₁.entries
    obtain ⟨es', hes', hm'⟩ := h₂.entries
    refine ⟨es' ++ es, by rw [hes', hes, List.append_assoc], fun e he => ?_⟩
    rcases List.mem_append.mp he with he | he
    · obtain ⟨ht, hm'⟩ := hm' e he
      exact ⟨ht, hm'.congr (State.held_course h₁.course).symm⟩
    · exact hm e he

/-- Goes on from a state that has been come to by speaking. -/
theorem andThen {α : Type} {a : Action δ ω α} (h : Spoken slot s t) (ha : a.Leaves (Spoken slot t) t) :
    a.Leaves (Spoken slot s) t :=
  ha.mono fun _ => h.trans

/-- Where a registration was there is one of the same course. -/
theorem get? {k : Nat} {r : Registration} (hst : Spoken slot s t) (hr : s.worker.requests.get? k = some r) :
    ∃ r', t.worker.requests.get? k = some r' ∧ r'.course = r.course := by
  have := hst.course k
  rw [hr] at this
  exact Option.map_eq_some_iff.mp this

/-- Changes of what is shared, with the entries that they make. -/
theorem of_shared {sh : Shared δ ω} (es : List Entry)
    (hsh : sh = { s.shared with world := sh.world, journal := es ++ s.shared.journal })
    (hm : ∀ e ∈ es, e.Talk ∧ e.Minor (s.held slot)) : Spoken slot s { s with shared := sh } where
  worker := rfl
  shared := hsh.trans (by rw [hsh])
  others _ _ := rfl
  course _ := rfl
  entries := ⟨es, by rw [hsh], hm⟩

theorem served (h : Spoken slot s t) : Served slot s t where
  slots := by rw [h.worker]
  others := h.others
  course := h.course
  serials := Nat.le_of_eq (by rw [h.worker])
  logger := by rw [h.worker]
  entries := by
    obtain ⟨es, hes, hm⟩ := h.entries
    exact ⟨es, hes, fun e he => (hm e he).2⟩

end Spoken

namespace Served

theorem refl (s : State δ ω) : Served slot s s := (Spoken.refl s).served

theorem trans (h₁ : Served slot s t) (h₂ : Served slot t u) : Served slot s u where
  slots := h₂.slots.trans h₁.slots
  others k hk := (h₂.others k hk).trans (h₁.others k hk)
  course k := (h₂.course k).trans (h₁.course k)
  serials := Nat.le_trans h₁.serials h₂.serials
  logger := h₂.logger.trans h₁.logger
  entries := by
    obtain ⟨es, hes, hm⟩ := h₁.entries
    obtain ⟨es', hes', hm'⟩ := h₂.entries
    refine ⟨es' ++ es, by rw [hes', hes, List.append_assoc], fun e he => ?_⟩
    rcases List.mem_append.mp he with he | he
    · exact (hm' e he).congr (State.held_course h₁.course).symm
    · exact hm e he

/-- Changes that leave the requests as they are, with the entries that they make. -/
theorem of_eq (hslots : t.worker.slots = s.worker.slots) (hrequests : t.worker.requests = s.worker.requests)
    (hserials : s.worker.nextSerial ≤ t.worker.nextSerial) (hlogger : t.worker.logger = s.worker.logger)
    (es : List Entry) (hj : t.shared.journal = es ++ s.shared.journal) (hm : ∀ e ∈ es, e.Minor (s.held slot)) :
    Served slot s t where
  slots := hslots
  others _ _ := by rw [hrequests]
  course _ := by rw [hrequests]
  serials := hserials
  logger := hlogger
  entries := ⟨es, hj, hm⟩

end Served
end
end EngineBridge
